import Mathlib
import CPreprocessor.Proofs.Macro.Parameters
import CPreprocessor.Proofs.Macro.Relocation

/-!
# Printing definitions

A definition that was read of a source is printed as a text that is read as the same definition
(`Definition.parse_renderTail`). Its replacement list has lost only layout, and a blank stands wherever
there was some, so its tokens are still read side by side (`Definition.sideBySide_normalise`).
-/

namespace CPreprocessor

open Lexeme

namespace Definition

variable {tokens rest after ts us : List Token} {t : Token} {p last : Location} {name : String}
  {names : List String} {variadic : Bool} {d : Definition} {q : List Char}

/-! ## Replacement lists -/

theorem normalise_some (l : Location) (ts : List Token) :
    normalise (some l) ts = [] ∨ ∃ us, normalise (some l) ts = .blank l :: us := by
  induction ts with
  | nil => exact .inl rfl
  | cons t ts ih =>
    rw [normalise]
    split
    · exact ih
    · exact .inr ⟨_, rfl⟩

theorem normalise_of_not_isLayout (ht : t.isLayout = false) (gap : Option Location)
    (ts : List Token) :
    normalise gap (t :: ts) = (gap.map Token.blank).toList ++ t :: normalise none ts := by
  rw [normalise, if_neg (by rw [ht]; exact Bool.false_ne_true)]

theorem normalise_normalise (gap : Option Location) (ts : List Token) :
    normalise none (normalise gap ts) = normalise gap ts := by
  induction ts generalizing gap with
  | nil => rfl
  | cons t ts ih =>
    by_cases ht : t.isLayout = true
    · rw [normalise, if_pos ht, ih]
    rw [Bool.not_eq_true] at ht
    rw [normalise_of_not_isLayout ht]
    cases gap with
    | none => exact (normalise_of_not_isLayout ht none _).trans (congrArg (t :: ·) (ih none))
    | some l =>
      have hblank : normalise none (.blank l :: t :: normalise none ts) =
          normalise (some l) (t :: normalise none ts) := rfl
      rw [Option.map_some, Option.toList_some, List.singleton_append, hblank,
        normalise_of_not_isLayout ht, ih]
      rfl

/-- All layout of a replacement list is blanks. -/
theorem isLayout_of_mem_normalise {gap : Option Location} (h : t ∈ normalise gap ts) :
    t.isLayout = false ∨ ∃ l, t = .blank l := by
  induction ts generalizing gap with
  | nil => cases h
  | cons u ts ih =>
    rw [normalise] at h
    split at h
    · exact ih h
    · rename_i hu
      rcases List.mem_append.mp h with hblank | h
      · rw [Option.mem_toList, Option.map_eq_some_iff] at hblank
        obtain ⟨l, -, rfl⟩ := hblank
        exact .inr ⟨l, rfl⟩
      · rcases List.mem_cons.mp h with rfl | h
        · exact .inl (Bool.not_eq_true _ |>.mp hu)
        · exact ih h

/-- A replacement list begins with nothing but a blank that its source does not begin with. -/
theorem prefix_of_normalise (hq : ' ' ∉ q) (h : q <+: spell (normalise none ts)) :
    q <+: spell ts := by
  induction ts generalizing q with
  | nil => exact h
  | cons t ts ih =>
    by_cases ht : t.isLayout = true
    · rw [normalise, if_pos ht] at h
      have h : q <+: spell (normalise (some t.location) ts) := h
      have hnil : q = [] := by
        obtain hnil | ⟨us, hblank⟩ := normalise_some t.location ts
        · rw [hnil] at h
          exact List.prefix_nil.mp h
        · rw [hblank] at h
          cases q with
          | nil => rfl
          | cons c q =>
            rw [spell_cons, Token.blank, (by decide : " ".toList = [' ']), List.cons_append,
              List.cons_prefix_cons] at h
            exact absurd (by rw [h.1]; exact List.mem_cons_self) hq
      rw [hnil]
      exact List.nil_prefix
    · rw [Bool.not_eq_true] at ht
      rw [normalise_of_not_isLayout ht, Option.map_none, Option.toList_none, List.nil_append,
        spell_cons] at h
      rw [spell_cons]
      obtain hshort | ⟨q', rfl⟩ := List.prefix_or_prefix_of_prefix h (List.prefix_append _ _)
      · exact hshort.trans (List.prefix_append _ _)
      · rw [List.prefix_append_right_inj] at h ⊢
        exact ih (fun hmem => hq (List.mem_append_right _ hmem)) h

/-- What begins with a digit does not begin with layout. -/
theorem head_normalise (hts : SideBySide ts) {c : Char} (hc : c ∈ (spell ts).head?)
    (hdigit : Text.isDigit c = true) : c ∈ (spell (normalise none ts)).head? := by
  cases ts with
  | nil => cases hc
  | cons t ts =>
    obtain ⟨⟨b, bs, hu, hfirst⟩, -⟩ := sideBySide_cons.mp hts
    rw [spell_cons, hu] at hc
    cases hc
    have ht : t.isLayout = false := by
      refine Bool.eq_false_iff.mpr fun hlayout => ?_
      obtain ⟨rfl, -⟩ | ⟨-, hblank, -⟩ | ⟨rfl, -⟩ := first_layout_cases hfirst hlayout
      · exact absurd hdigit (by decide)
      · rw [(space_cases (.inl hblank)).2.2.1] at hdigit
        cases hdigit
      · exact absurd hdigit (by decide)
    rw [normalise_of_not_isLayout ht, Option.map_none, Option.toList_none, List.nil_append,
      spell_cons, hu]
    rfl

/-- The point before a digit that goes on no number. -/
theorem first_point {c : Char} {w : List Char} (hdigit : Text.isDigit c = true)
    (hstops : Stops .number ['.'] (c :: w)) : first '.' (c :: w) = .ok (.number, 0) := by
  have hplain : NoLayout '.' (c :: w) := noLayout_of_class (.inr (.inr (.inr rfl)))
  have hstarts : startsNumber '.' (c :: w) = true := by
    rw [startsNumber, decide_eq_true rfl, Bool.true_and, List.head?_cons, Option.any_some, hdigit,
      Bool.or_true]
  rw [hplain.first_eq, if_pos hstarts, numberLength_of_stop hstops.1]

/-- The tokens of a replacement list are read side by side, as they were where layout stood between
them. -/
theorem sideBySide_normalise (h : SideBySide ts) (gap : Option Location) :
    SideBySide (normalise gap ts) := by
  induction ts generalizing gap with
  | nil => exact .nil
  | cons t ts ih =>
    have hts := h.of_suffix (List.suffix_cons t ts)
    by_cases ht : t.isLayout = true
    · rw [normalise, if_pos ht]
      exact ih hts _
    rw [Bool.not_eq_true] at ht
    have hstops : Stops t.kind t.text.toList (spell (normalise none ts)) :=
      (h.stops ht).of_prefixes (.inl rfl) fun q hq => prefix_of_normalise hq
    have hhead : SideBySide (t :: normalise none ts) := by
      obtain halone | ⟨hkind, htext⟩ := h.alone
      · exact (ih hts none).cons halone ht hstops
      · obtain ⟨⟨c, cs, hu, hfirst⟩, -⟩ := sideBySide_cons.mp h
        rw [htext, (by decide : ".".toList = ['.'])] at hu
        obtain ⟨rfl, rfl⟩ := List.cons.inj hu
        -- a point is a number only where a digit comes next
        obtain ⟨b, hb, hdigit⟩ : ∃ b ∈ (spell ts).head?, Text.isDigit b = true := by
          have hstarts := startsNumber_of_first (hkind ▸ hfirst)
          have hany : (spell ts).head?.any Text.isDigit = true := by
            simpa [startsNumber, Text.isDigit] using hstarts.1
          exact Option.any_eq_true .. |>.mp hany
        obtain ⟨w, hw⟩ := List.head?_eq_some_iff.mp (head_normalise hts hb hdigit)
        rw [hkind, htext, hw] at hstops
        refine sideBySide_cons.mpr ⟨⟨'.', [], by rw [htext]; decide, ?_⟩, ih hts none⟩
        rw [List.nil_append, hw, hkind, first_point hdigit hstops]
        rfl
    rw [normalise_of_not_isLayout ht]
    cases gap with
    | none => exact hhead
    | some l => exact hhead.blank ht l

/-! ## What is printed -/

/-- Whether a name is read as an identifier. -/
def IsName (name : String) : Prop :=
  lexemes name.toList = [.token .identifier name.toList]

/-- What printing relies on: names that are read as such, a parameter list that is one, and a
replacement list that is read as it stands. -/
structure Written (d : Definition) : Prop where
  name : IsName d.name
  reserved : d.name ≠ "defined"
  parameters : ∀ names variadic, d.shape = .function names variadic →
    IsParameterClause variadic names ∧ ∀ name ∈ names, name ≠ variadicName → IsName name
  sideBySide : SideBySide d.replacement
  normal : normalise none d.replacement = d.replacement
  trimmed : skipLayout d.replacement = d.replacement
  operators : operatorFault? d.shape d.replacement = none
  plain : ∀ t ∈ d.replacement, t.hide = ∅ ∧ t.painted = false

theorem isName_of_mem (hts : SideBySide ts) (ht : t ∈ ts) (hidentifier : t.isIdentifier = true) :
    IsName t.text := by
  obtain ⟨before, after, rfl⟩ := List.append_of_mem ht
  have hkind : t.kind = .identifier := of_decide_eq_true hidentifier
  obtain halone | ⟨hnumber, -⟩ := hts.of_append.alone
  · rwa [Token.Alone, hkind] at halone
  · rw [hkind] at hnumber
    cases hnumber

/-- A definition that is read of tokens side by side is fit to be printed. -/
theorem written_of_parse (hts : SideBySide tokens)
    (hplain : ∀ t ∈ tokens, t.hide = ∅ ∧ t.painted = false) {location : Option Location}
    {builtin : Bool} (h : parse tokens location builtin = .ok d) : d.Written := by
  have hread := fun t => mem_of_parse (t := t) h
  obtain ⟨name, rest, shape, after, hskip, hidentifier, hreserved, hshape, hoperators, rfl⟩ :=
    parse_eq_ok_iff.mp h
  have hname := suffix_of_skipLayout hskip
  have hrest : rest <:+ tokens := (List.suffix_cons name rest).trans hname
  have hafter : skipLayout after <:+ tokens :=
    (suffix_of_skipLayout rfl).trans ((suffix_of_shapeOf hshape).trans hrest)
  refine ⟨isName_of_mem hts (hname.mem List.mem_cons_self) hidentifier, hreserved, ?_,
    sideBySide_normalise (hts.of_suffix hafter) none, normalise_normalise _ _, ?_, hoperators,
    fun t ht => ?_⟩
  · rintro names variadic rfl
    unfold shapeOf at hshape
    split at hshape
    · cases hshape
    split at hshape
    · split at hshape
      · cases hshape
      · rename_i parameters variadic' after' hclause
        cases hshape
        obtain ⟨hlist, hnames⟩ := exists_of_parameterClause hclause
        refine ⟨hlist, fun other hother hcollects => ?_⟩
        obtain ⟨v, hv, hidentifier, rfl⟩ := hnames other hother hcollects
        exact isName_of_mem hts (hrest.mem (List.mem_cons_of_mem _ hv)) hidentifier
    · cases hshape
  · cases hbody : skipLayout after with
    | nil => rfl
    | cons t body =>
      have ht : t.isLayout = false := by
        have hhead := List.head?_dropWhile_not Token.isLayout after
        rw [← skipLayout, hbody] at hhead
        exact hhead
      rw [normalise_of_not_isLayout ht]
      exact List.dropWhile_cons_of_neg (by rw [ht]; exact Bool.false_ne_true)
  · obtain ht | ⟨l, rfl⟩ := hread t ht
    · exact hplain t ht
    · exact ⟨rfl, rfl⟩

section
variable (p : Location)

/-- The parameters of a macro with their parentheses. -/
def shapeTokens : Shape → List Token
  | .object => []
  | .function names variadic => mark p "(" :: (parameterTokens p variadic names ++ [mark p ")"])

/-- A replacement list with the blank before it. -/
def bodyTokens : List Token → List Token
  | [] => []
  | t :: ts => .blank p :: (t :: ts).map (.relocate fun _ => p)

/-- The tokens that a definition is printed as, all at one place. -/
def printed (d : Definition) : List Token :=
  word p d.name :: (shapeTokens p d.shape ++ bodyTokens p d.replacement)

end

theorem text_ne_empty (hts : SideBySide (t :: ts)) : t.text ≠ "" := by
  obtain ⟨⟨c, cs, hu, -⟩, -⟩ := sideBySide_cons.mp hts
  intro htext
  rw [htext] at hu
  cases hu

theorem spell_relocate (f : Location → Location) (ts : List Token) :
    spell (ts.map (.relocate f)) = spell ts := List.flatMap_map ..

theorem toList_body (d : Definition) : d.body.toList = spell d.replacement := by
  rw [body, String.toList_join, List.flatMap_map]
  rfl

theorem spell_bodyTokens (hts : SideBySide d.replacement) :
    spell (bodyTokens p d.replacement) =
      if d.body.isEmpty then [] else ' ' :: d.body.toList := by
  rw [toList_body]
  cases hbody : d.replacement with
  | nil =>
    have hempty : d.body.isEmpty = true := by
      rw [String.isEmpty_iff, ← String.toList_eq_nil_iff, toList_body, hbody]
      rfl
    rw [hempty]
    rfl
  | cons t ts =>
    have hempty : d.body.isEmpty = false := by
      rw [String.isEmpty_eq_false_iff, ne_eq, ← String.toList_eq_nil_iff, toList_body, hbody,
        spell_cons]
      rw [hbody] at hts
      exact List.append_ne_nil_of_left_ne_nil (String.toList_eq_nil_iff.not.mpr (text_ne_empty hts)) _
    rw [hempty, if_neg Bool.false_ne_true, bodyTokens, spell_cons, spell_relocate, Token.blank,
      (by decide : " ".toList = [' ']), List.singleton_append]

theorem spell_printed (h : d.Written) : spell (d.printed p) = d.renderTail.toList := by
  have hbody := spell_bodyTokens (p := p) h.sideBySide
  have hhead : d.name.toList ++ spell (shapeTokens p d.shape) =
      (match d.shape with
        | .object => d.name
        | .function names variadic =>
          d.name ++ "(" ++ ", ".intercalate (renderParameters names variadic) ++ ")").toList := by
    cases hshape : d.shape with
    | object => exact List.append_nil _
    | function names variadic =>
      obtain ⟨hclause, -⟩ := h.parameters names variadic hshape
      have hcollects : variadic = true → names ≠ [] := by
        rintro rfl rfl
        exact hclause.elim (fun hnone => nomatch hnone.2) fun hlist => hlist
      rw [shapeTokens, spell_cons, spell_append, spell_parameterTokens hcollects,
        spell_singleton]
      simp only [String.toList_append, List.append_assoc]
      rfl
  rw [printed, spell_cons, spell_append, hbody, ← List.append_assoc]
  have hhead : (word p d.name).text.toList ++ spell (shapeTokens p d.shape) = _ := hhead
  rw [hhead, renderTail]
  cases d.body.isEmpty with
  | true => exact List.append_nil _
  | false =>
    simp only [Bool.false_eq_true, if_false, String.toList_append, List.append_assoc]
    rfl

/-! ## The printed tokens side by side -/

theorem stops_of_maximal {u : List Char} (hslash : u ≠ ['/']) (hpoint : u ≠ ['.'])
    (hmax : ∀ p ∈ punctuators, u.length < p.length → ¬ u <+: p) (w : List Char) :
    Stops .punctuator u w :=
  ⟨fun h => absurd h hslash, fun h => absurd h hpoint, fun q hq hlength hpre =>
    hmax q hq hlength
      (List.prefix_of_prefix_length_le (List.prefix_append u w) hpre (Nat.le_of_lt hlength))⟩

/-- Nothing goes on with a parenthesis, a comma or an ellipsis. -/
theorem sideBySide_mark {text : String} (htext : text ∈ ["(", ")", ",", "..."])
    (h : SideBySide ts) : SideBySide (mark p text :: ts) := by
  simp only [List.mem_cons, List.not_mem_nil, or_false] at htext
  obtain rfl | rfl | rfl | rfl := htext
  · exact h.cons (Token.alone_of_first (by decide : "(".toList = ['(']) rfl) rfl
      (stops_of_maximal (u := "(".toList) (by decide) (by decide) (by decide) _)
  · exact h.cons (Token.alone_of_first (by decide : ")".toList = [')']) rfl) rfl
      (stops_of_maximal (u := ")".toList) (by decide) (by decide) (by decide) _)
  · exact h.cons (Token.alone_of_first (by decide : ",".toList = [',']) rfl) rfl
      (stops_of_maximal (u := ",".toList) (by decide) (by decide) (by decide) _)
  · exact h.cons
      (Token.alone_of_first (by decide : "...".toList = ['.', '.', '.']) rfl) rfl
      (stops_of_maximal (u := "...".toList) (by decide) (by decide) (by decide) _)

theorem sideBySide_word (hname : IsName name) (h : SideBySide ts)
    (hhead : ∀ c ∈ (spell ts).head?, isNameChar c = false ∧ ¬ IsQuote c) :
    SideBySide (word p name :: ts) :=
  h.cons hname rfl ⟨fun c hc => (hhead c hc).1, fun _ c hc => (hhead c hc).2⟩

/-- A name ends where a blank, a parenthesis, a comma or an ellipsis comes after it. -/
theorem sideBySide_word_cons (hname : IsName name) (h : SideBySide (t :: ts))
    (ht : t.text ∈ ["(", ")", ",", "...", " "]) : SideBySide (word p name :: t :: ts) := by
  refine sideBySide_word hname h fun c hc => ?_
  obtain ⟨u, hu, hc⟩ : ∃ u ∈ ["(", ")", ",", "...", " "], c ∈ u.toList.head? := by
    refine ⟨t.text, ht, ?_⟩
    obtain ⟨⟨b, bs, hu, -⟩, -⟩ := sideBySide_cons.mp h
    rw [spell_cons, hu] at hc
    rw [hu]
    exact hc
  simp only [List.mem_cons, List.not_mem_nil, or_false] at hu
  obtain rfl | rfl | rfl | rfl | rfl := hu
  all_goals
    obtain rfl := Option.some.inj hc
    decide

theorem sideBySide_relocate (f : Location → Location) (h : SideBySide ts) :
    SideBySide (ts.map (.relocate f)) := by
  rw [SideBySide, spell_relocate, h, List.map_map]
  rfl

theorem sideBySide_parameterTokens {seen : List String} (hlist : IsParameterList seen variadic names)
    (hnames : ∀ name ∈ names, name ≠ variadicName → IsName name) (h : SideBySide ts) :
    SideBySide (parameterTokens p variadic names ++ mark p ")" :: ts) := by
  have hclose : SideBySide (mark p ")" :: ts) := sideBySide_mark (by decide) h
  fun_induction IsParameterList seen variadic names with
  | case1 => exact hlist.elim
  | case2 seen name =>
    have hname := hnames name List.mem_cons_self
    have hdots : SideBySide (mark p "..." :: mark p ")" :: ts) := sideBySide_mark (by decide) hclose
    rw [parameterTokens, lastParameterTokens]
    cases variadic with
    | false =>
      have hplain := hlist.resolve_left fun hdots => Bool.noConfusion hdots.2
      exact sideBySide_word_cons (hname hplain.1) hclose
        (show ")" ∈ _ by decide)
    | true =>
      rw [Bool.not_true, if_neg Bool.false_ne_true]
      split
      · exact hdots
      · rename_i hreserved
        exact sideBySide_word_cons (hname hreserved) hdots (show "..." ∈ _ by decide)
  | case3 seen name next names ih =>
    obtain ⟨hname, hlist⟩ := hlist
    have hrest := ih hlist fun other hother => hnames other (List.mem_cons_of_mem name hother)
    obtain ⟨t, us, htokens, hlayout, -⟩ := exists_parameterTokens (p := p) hlist
    rw [parameterTokens, htokens]
    rw [htokens] at hrest
    exact sideBySide_word_cons (hnames name List.mem_cons_self hname.1)
      (sideBySide_mark (by decide) (hrest.blank hlayout p)) (show "," ∈ _ by decide)

theorem Written.head_not_isLayout (h : d.Written) (hbody : d.replacement = t :: ts) :
    t.isLayout = false := by
  have hhead := List.head?_dropWhile_not Token.isLayout d.replacement
  rw [← skipLayout, h.trimmed, hbody] at hhead
  exact hhead

theorem sideBySide_printed (h : d.Written) : SideBySide (d.printed p) := by
  have hbody : SideBySide (bodyTokens p d.replacement) := by
    have hside := h.sideBySide
    cases hbody : d.replacement with
    | nil => exact .nil
    | cons t ts =>
      rw [hbody] at hside
      have ht : (t.relocate fun _ => p).isLayout = false :=
        (Token.isLayout_relocate t).trans (h.head_not_isLayout hbody)
      exact (sideBySide_relocate (fun _ => p) hside).blank ht p
  rw [printed]
  cases hshape : d.shape with
  | object =>
    cases hreplacement : d.replacement with
    | nil => exact sideBySide_word h.name .nil nofun
    | cons t ts =>
      rw [hreplacement] at hbody
      exact sideBySide_word_cons h.name hbody (show " " ∈ _ by decide)
  | function names variadic =>
    obtain ⟨hclause, hnames⟩ := h.parameters names variadic hshape
    have hlist : SideBySide (parameterTokens p variadic names ++
        mark p ")" :: bodyTokens p d.replacement) := by
      obtain ⟨rfl, rfl⟩ | hlist := hclause
      · exact sideBySide_mark (by decide) hbody
      · exact sideBySide_parameterTokens hlist hnames hbody
    rw [shapeTokens, List.cons_append, List.append_assoc, List.singleton_append]
    exact sideBySide_word_cons h.name (sideBySide_mark (by decide) hlist) (show "(" ∈ _ by decide)

/-! ## Reading back -/

theorem shapeOf_printed (h : d.Written) (last : Location) :
    shapeOf last (shapeTokens p d.shape ++ bodyTokens p d.replacement) =
      .ok (d.shape, bodyTokens p d.replacement) := by
  cases hshape : d.shape with
  | object =>
    cases d.replacement with
    | nil => rfl
    | cons t ts => rfl
  | function names variadic =>
    obtain ⟨hclause, -⟩ := h.parameters names variadic hshape
    have hopen : (mark p "(").isPunctuator "(" = true := rfl
    rw [shapeTokens, List.cons_append, List.append_assoc, List.singleton_append, shapeOf,
      if_pos hopen, parameterClause_parameterTokens hclause]

theorem parse_printed (h : d.Written) (location : Option Location) (builtin : Bool) :
    parse (d.printed p) location builtin =
      .ok { d.relocate (fun _ => p) with version := 0, location := some p, builtin } := by
  have hbody : skipLayout (bodyTokens p d.replacement) =
      d.replacement.map (.relocate fun _ => p) := by
    cases hbody : d.replacement with
    | nil => rfl
    | cons t ts =>
      have ht := h.head_not_isLayout hbody
      have hblank : ∀ us, skipLayout (.blank p :: us) = skipLayout us := fun _ => rfl
      rw [bodyTokens, hblank, List.map_cons, skipLayout,
        List.dropWhile_cons_of_neg (by rw [Token.isLayout_relocate, ht]; exact Bool.false_ne_true)]
  have hnormal := normalise_relocate (f := fun _ => p) none d.replacement
  rw [h.normal, Option.map_none] at hnormal
  refine parse_eq_ok_iff.mpr ⟨_, _, d.shape, bodyTokens p d.replacement, rfl, rfl, h.reserved,
    shapeOf_printed h _, ?_, ?_⟩
  · rw [hbody, hnormal, operatorFault?_relocate, h.operators]
    rfl
  · rw [hbody, hnormal]
    rfl

/-! ## The printed text -/

/-- Whether a token stands at a place as if it were read there, and is a blank if it is layout. -/
structure PrintedAt (p : Location) (t : Token) : Prop where
  location : t.location = p
  hide : t.hide = ∅
  painted : t.painted = false
  blank : t.isLayout = true → t.text = " "

theorem printedAt_word (p : Location) (name : String) : PrintedAt p (word p name) :=
  ⟨rfl, rfl, rfl, nofun⟩

theorem printedAt_mark (p : Location) (text : String) : PrintedAt p (mark p text) :=
  ⟨rfl, rfl, rfl, nofun⟩

theorem printedAt_blank (p : Location) : PrintedAt p (.blank p) := ⟨rfl, rfl, rfl, fun _ => rfl⟩

theorem printedAt_parameterTokens (p : Location) (variadic : Bool) (names : List String) :
    ∀ t ∈ parameterTokens p variadic names, PrintedAt p t := by
  fun_induction parameterTokens p variadic names with
  | case1 => exact List.forall_mem_nil _
  | case2 name =>
    unfold lastParameterTokens
    split
    · exact List.forall_mem_singleton.mpr (printedAt_word p name)
    split
    · exact List.forall_mem_singleton.mpr (printedAt_mark p "...")
    · exact List.forall_mem_cons.mpr
        ⟨printedAt_word p name, List.forall_mem_singleton.mpr (printedAt_mark p "...")⟩
  | case3 name next names ih =>
    exact List.forall_mem_cons.mpr ⟨printedAt_word p name, List.forall_mem_cons.mpr
      ⟨printedAt_mark p ",", List.forall_mem_cons.mpr ⟨printedAt_blank p, ih⟩⟩⟩

theorem Written.printedAt (h : d.Written) (p : Location) : ∀ t ∈ d.printed p, PrintedAt p t := by
  refine List.forall_mem_cons.mpr ⟨printedAt_word p d.name, List.forall_mem_append.mpr ⟨?_, ?_⟩⟩
  · cases d.shape with
    | object => exact nofun
    | function names variadic =>
      exact List.forall_mem_cons.mpr ⟨printedAt_mark p "(", List.forall_mem_append.mpr
        ⟨printedAt_parameterTokens p variadic names,
          List.forall_mem_singleton.mpr (printedAt_mark p ")")⟩⟩
  · have hreplacement : ∀ t ∈ d.replacement, PrintedAt p (t.relocate fun _ => p) := by
      intro t ht
      obtain ⟨hhide, hpainted⟩ := h.plain t ht
      refine ⟨rfl, hhide, hpainted, fun hlayout => ?_⟩
      have hnormal := h.normal ▸ ht
      obtain hnone | ⟨l, rfl⟩ := isLayout_of_mem_normalise hnormal
      · rw [Token.isLayout_relocate, hnone] at hlayout
        cases hlayout
      · rfl
    cases hbody : d.replacement with
    | nil => exact nofun
    | cons t ts =>
      rw [hbody] at hreplacement
      exact List.forall_mem_cons.mpr ⟨printedAt_blank p, List.forall_mem_map.mpr hreplacement⟩

/-- Tokens that were read, moved to one place, are printed tokens that look like them. -/
theorem map_relocate_eq (hforms : ts.map Token.form = us.map Token.form)
    (hplain : ∀ t ∈ ts, t.hide = ∅ ∧ t.painted = false) (hus : ∀ t ∈ us, PrintedAt p t) :
    ts.map (.relocate fun _ => p) = us := by
  induction ts generalizing us with
  | nil => exact (List.map_eq_nil_iff.mp hforms.symm).symm
  | cons t ts ih =>
    obtain ⟨u, us, rfl, hform, hrest⟩ := List.map_eq_cons_iff.mp hforms.symm
    obtain ⟨⟨hhide, hpainted⟩, hplain⟩ := List.forall_mem_cons.mp hplain
    obtain ⟨hu, hus⟩ := List.forall_mem_cons.mp hus
    rw [List.map_cons, ih hrest.symm hplain hus]
    refine congrArg (· :: us) ?_
    obtain ⟨kind, text, location, hide, painted⟩ := t
    obtain ⟨kind', text', location', hide', painted'⟩ := u
    obtain ⟨rfl, rfl⟩ := Prod.mk.inj hform
    obtain ⟨rfl, rfl, rfl, -⟩ := hu
    obtain rfl : hide = ∅ := hhide
    obtain rfl : painted = false := hpainted
    rfl

/-- A printed definition is one line without a splice. -/
theorem Written.not_mem_newline (h : d.Written) (p : Location) :
    '\n' ∉ spell (d.printed p) := by
  intro hmem
  obtain ⟨t, ht, hmem⟩ := List.mem_flatMap.mp hmem
  cases hlayout : t.isLayout with
  | true =>
    rw [(h.printedAt p t ht).blank hlayout] at hmem
    exact absurd hmem (by decide)
  | false =>
    obtain ⟨before, after, hprinted⟩ := List.append_of_mem ht
    have hside := sideBySide_printed (p := p) h
    rw [hprinted] at hside
    obtain halone | ⟨-, htext⟩ := hside.of_append.alone
    · obtain ⟨c, cs, hu, hfirst⟩ := halone.first_eq hlayout
      rw [hu] at hmem
      exact not_mem_newline_of_first hfirst hlayout hmem
    · rw [htext] at hmem
      exact absurd hmem (by decide)

/-- The text of a definition is read as tokens like the printed ones. -/
theorem Written.exists_tokens (h : d.Written) (p : Location) (file : String) (firstLine : Int) :
    ∃ read, ({ text := d.renderTail, file, firstLine } : Source).tokens = .ok read ∧
      read.map (.relocate fun _ => p) = d.printed p := by
  have hspell : spell (d.printed p) = despliced d.renderTail.toList := by
    rw [← spell_printed h, despliced_of_not_mem_newline (h.not_mem_newline p)]
  obtain ⟨read, hread, hforms, hplain⟩ := Source.exists_tokens_of_sideBySide
    (s := { text := d.renderTail, file, firstLine }) (sideBySide_printed h) hspell
  exact ⟨read, hread, map_relocate_eq hforms hplain (h.printedAt p)⟩

theorem map_form_relocate (f : Location → Location) (ts : List Token) :
    (ts.map (.relocate f)).map Token.form = ts.map Token.form := List.map_map

theorem render_congr {d' : Definition} (hname : d'.name = d.name) (hshape : d'.shape = d.shape)
    (hforms : d'.replacement.map Token.form = d.replacement.map Token.form) :
    d'.render = d.render := by
  have htexts : d'.replacement.map Token.text = d.replacement.map Token.text := by
    have htexts := congrArg (List.map Prod.snd) hforms
    rwa [List.map_map, List.map_map] at htexts
  rw [render, render, renderTail, renderTail, body, body, htexts, hname, hshape]

/-- The text of a definition that was read of a source is read as the same definition, which is printed
as the same text. -/
theorem parse_renderTail {s : Source} (htokens : s.tokens = .ok tokens) {location : Option Location}
    {builtin : Bool} (h : parse tokens location builtin = .ok d) {text : String}
    (htext : d.render = "#define " ++ text) (file : String) (firstLine : Int)
    (location' : Option Location) (builtin' : Bool) :
    ∃ read d', ({ text, file, firstLine } : Source).tokens = .ok read ∧
      parse read location' builtin' = .ok d' ∧ d'.name = d.name ∧ d.sameAs d' = true ∧
      d'.render = d.render := by
  obtain rfl : d.renderTail = text := by
    rw [render, ← String.toList_inj, String.toList_append, String.toList_append,
      List.append_cancel_left_eq, String.toList_inj] at htext
    exact htext
  obtain ⟨hside, hspell⟩ := s.sideBySide_tokens htokens
  have hplain : ∀ t ∈ tokens, t.hide = ∅ ∧ t.painted = false := by
    obtain ⟨read, hread, -, hplain⟩ := Source.exists_tokens_of_sideBySide hside hspell
    rw [htokens] at hread
    cases hread
    exact hplain
  have hwritten := written_of_parse hside hplain h
  obtain ⟨read, hread, hprinted⟩ := hwritten.exists_tokens default file firstLine
  -- the tokens that are read stand at other places than the printed ones
  have hmoved := parse_relocate (f := fun _ => default) read location' builtin'
  rw [hprinted, parse_printed hwritten] at hmoved
  cases hparse : parse read location' builtin' with
  | error fault =>
    rw [hparse] at hmoved
    cases hmoved
  | ok d' =>
    rw [hparse, moved_ok, Except.ok.injEq] at hmoved
    have hname : d'.name = d.name := (congrArg Definition.name hmoved).symm
    have hshape : d'.shape = d.shape := (congrArg Definition.shape hmoved).symm
    have hforms : d'.replacement.map Token.form = d.replacement.map Token.form := by
      have hbodies := congrArg (fun e => e.replacement.map Token.form) hmoved
      simp only [relocate, map_form_relocate] at hbodies
      exact hbodies.symm
    refine ⟨read, d', hread, hparse, hname, ?_, render_congr hname hshape hforms⟩
    rw [sameAs, Bool.and_eq_true, decide_eq_true_eq, decide_eq_true_eq]
    exact ⟨hshape.symm, hforms.symm⟩

/-- A comment, line ends, a splice and a collecting parameter are printed in their usual form. -/
theorem parse_renderTail_spaced :
    ∃ tokens d read d',
      ({ text := "F( a,\n b ... )/* + */a<\\\n<b\t" } : Source).tokens = .ok tokens ∧
      parse tokens none false = .ok d ∧ d.render = "#define F(a, b...) a<<b" ∧
      ({ text := "F(a, b...) a<<b" } : Source).tokens = .ok read ∧ parse read none false = .ok d' ∧
      d'.name = d.name ∧ d.sameAs d' = true ∧ d'.render = d.render := by
  have hread : (({ text := "F( a,\n b ... )/* + */a<\\\n<b\t" } : Source).tokens.toOption.bind
      fun tokens => (parse tokens none false).toOption.map render) =
        some "#define F(a, b...) a<<b" := by cbv
  obtain ⟨tokens, htokens, hread⟩ := Option.bind_eq_some_iff.mp hread
  obtain ⟨d, hd, hrender⟩ := Option.map_eq_some_iff.mp hread
  have htokens := toOption_eq_some_iff.mp htokens
  have hd := toOption_eq_some_iff.mp hd
  have htext : d.render = "#define " ++ "F(a, b...) a<<b" := hrender.trans (by decide)
  obtain ⟨read, d', h⟩ := parse_renderTail htokens hd htext "<input>" 1 none false
  exact ⟨tokens, d, read, d', htokens, hd, hrender, h⟩

end Definition

end CPreprocessor
