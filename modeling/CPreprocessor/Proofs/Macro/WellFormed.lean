import CPreprocessor.Proofs.Macro.Grammar
import CPreprocessor.Proofs.Macro.Printing

/-!
# Well-formed definitions

Tokens write a macro if a name comes first, then what tells its shape, then its body
(`Definition.Writes`). A definition that is read is written by its tokens, and it is well formed
(`Definition.WellFormed`): its replacement list is the body with single blanks for layout, and no operator
in it lacks an operand. All tokens that write a macro whose operators have their operands are read
(`Definition.parse_wellFormed`).
-/

namespace CPreprocessor

variable {tokens body ts us : List Token} {t : Token}

theorem significant_skipLayout (ts : List Token) : significant (skipLayout ts) = significant ts := by
  conv_rhs => rw [← List.takeWhile_append_dropWhile (p := Token.isLayout) (l := ts)]
  rw [significant_append, significant_of_isLayout fun t ht => List.mem_takeWhile_imp ht, List.nil_append,
    skipLayout]

theorem head?_significant (h : ∀ t ∈ ts.head?, t.isLayout = false) :
    (significant ts).head? = ts.head? := by
  cases ts with
  | nil => rfl
  | cons t ts => rw [significant_cons_of_not_isLayout (h t rfl), List.head?_cons, List.head?_cons]

theorem getLast?_significant (h : ∀ t ∈ ts.getLast?, t.isLayout = false) :
    (significant ts).getLast? = ts.getLast? := by
  induction ts using List.reverseRecOn with
  | nil => rfl
  | append_singleton ts t _ =>
    rw [List.getLast?_concat] at h ⊢
    rw [significant_append, significant_cons_of_not_isLayout (h t rfl), List.getLast?_append]
    rfl

namespace Definition

variable {names : List String} {shape : Shape} {d : Definition} {name : Token}

/-- Whether tokens write a macro of this name and shape, with this body. -/
structure Writes (tokens : List Token) (name : Token) (shape : Shape) (body : List Token) : Prop where
  identifier : name.isIdentifier = true
  unreserved : name.text ≠ "defined"
  heads : ∃ layout rest, tokens = layout ++ name :: rest ∧ (∀ t ∈ layout, t.isLayout = true) ∧
    Heads rest shape body

/-- Whether all operators have their operands. `##` needs a token on either side, and in a macro that takes
arguments `#` needs a parameter after it. -/
structure HasOperands (shape : Shape) (ts : List Token) : Prop where
  first : ∀ t ∈ ts.head?, t.isPunctuator "##" = false
  last : ∀ t ∈ ts.getLast?, t.isPunctuator "##" = false
  stringized : ∀ names variadic, shape = .function names variadic → ∀ before mark after,
    ts = before ++ mark :: after → mark.isPunctuator "#" = true →
      ∃ t ∈ (significant after).head?, t.isIdentifier = true ∧ t.text ∈ names

/-- Whether all layout is single blanks between other tokens. -/
structure Spaced (ts : List Token) : Prop where
  plain : ∀ t ∈ ts, t.kind ≠ .comment ∧ t.kind ≠ .newline
  blank : ∀ t ∈ ts, t.kind = .whitespace → t.text = " "
  first : ∀ t ∈ ts.head?, t.isLayout = false
  last : ∀ t ∈ ts.getLast?, t.isLayout = false
  apart : ts.IsChain fun t u => ¬ (t.kind = .whitespace ∧ u.kind = .whitespace)

/-- What stands between layout. -/
def stretches (ts : List Token) : List (List Token) :=
  (ts.splitOnP Token.isLayout).filter fun stretch => !stretch.isEmpty

/-- Whether a macro is what a name and a body should be read as. -/
structure WellFormed (d : Definition) (name : Token) (body : List Token) : Prop where
  name : d.name = name.text
  collects : d.isVariadic = true → d.parameters ≠ []
  spaced : Spaced d.replacement
  stretches : stretches d.replacement = stretches body
  operands : HasOperands d.shape d.replacement

/-! ## Layout -/

theorem stretches_cons_of_isLayout (ht : t.isLayout = true) (ts : List Token) :
    stretches (t :: ts) = stretches ts := by
  rw [stretches, List.splitOnP_cons_eq_if_modifyHead, if_pos ht]
  rfl

/-- Whether the stretches are the same. The first one, which may be empty, goes on with a token that is
put in front. -/
def SameStretches (ts us : List Token) : Prop :=
  ∃ first more more', ts.splitOnP Token.isLayout = first :: more ∧
    us.splitOnP Token.isLayout = first :: more' ∧
    (more.filter fun stretch => !stretch.isEmpty) = more'.filter fun stretch => !stretch.isEmpty

namespace SameStretches

theorem stretches_eq (h : SameStretches ts us) : stretches ts = stretches us := by
  obtain ⟨first, more, more', hts, hus, hmore⟩ := h
  rw [stretches, stretches, hts, hus, List.filter_cons, List.filter_cons, hmore]

theorem cons (h : SameStretches ts us) (ht : t.isLayout = false) :
    SameStretches (t :: ts) (t :: us) := by
  obtain ⟨first, more, more', hts, hus, hmore⟩ := h
  have hfirst : ∀ {ts more}, ts.splitOnP Token.isLayout = first :: more →
      (t :: ts).splitOnP Token.isLayout = (t :: first) :: more := fun hts => by
    rw [List.splitOnP_cons_eq_if_modifyHead, if_neg (by rw [ht]; exact Bool.false_ne_true), hts,
      List.modifyHead_cons]
  exact ⟨t :: first, more, more', hfirst hts, hfirst hus, hmore⟩

theorem layout {u : Token} (h : stretches ts = stretches us) (ht : t.isLayout = true)
    (hu : u.isLayout = true) : SameStretches (t :: ts) (u :: us) := by
  refine ⟨[], ts.splitOnP Token.isLayout, us.splitOnP Token.isLayout, ?_, ?_, h⟩
  · rw [List.splitOnP_cons_eq_if_modifyHead, if_pos ht]
  · rw [List.splitOnP_cons_eq_if_modifyHead, if_pos hu]

theorem nil (h : stretches ts = []) (ht : t.isLayout = true) : SameStretches (t :: ts) [] := by
  refine ⟨[], ts.splitOnP Token.isLayout, [], ?_, rfl, h⟩
  rw [List.splitOnP_cons_eq_if_modifyHead, if_pos ht]

end SameStretches

theorem sameStretches_normalise (ts : List Token) :
    SameStretches ts (normalise none ts) ∧
      ∀ l, stretches (normalise (some l) ts) = stretches ts := by
  -- with layout in front the first stretch is empty, and without it the next token joins the first one
  induction ts with
  | nil => exact ⟨⟨[], [], [], rfl, rfl, rfl⟩, fun _ => rfl⟩
  | cons t ts ih =>
    obtain ⟨hsame, hgap⟩ := ih
    cases ht : t.isLayout with
    | true =>
      have hnormal : ∀ gap, normalise gap (t :: ts) = normalise (gap <|> some t.location) ts :=
        fun gap => by rw [normalise, if_pos ht]
      refine ⟨?_, fun l => ?_⟩
      · have hstretches := hgap t.location
        have hfirst : normalise none (t :: ts) = normalise (some t.location) ts := hnormal none
        rw [hfirst]
        obtain hnil | ⟨us, hblank⟩ := normalise_some t.location ts
        · rw [hnil] at hstretches ⊢
          exact .nil hstretches.symm ht
        · rw [hblank] at hstretches ⊢
          rw [stretches_cons_of_isLayout rfl] at hstretches
          exact .layout hstretches.symm ht rfl
      · rw [stretches_cons_of_isLayout ht, hnormal]
        exact hgap l
    | false =>
      refine ⟨?_, fun l => ?_⟩
      · rw [normalise_of_not_isLayout ht]
        exact hsame.cons ht
      · rw [normalise_of_not_isLayout ht, Option.map_some, Option.toList_some, List.singleton_append,
          stretches_cons_of_isLayout rfl]
        exact (hsame.cons ht).stretches_eq.symm

theorem stretches_skipLayout (ts : List Token) : stretches (skipLayout ts) = stretches ts := by
  induction ts with
  | nil => rfl
  | cons t ts ih =>
    cases ht : t.isLayout with
    | true =>
      rw [skipLayout, List.dropWhile_cons_of_pos ht, stretches_cons_of_isLayout ht, ← ih, skipLayout]
    | false => rw [skipLayout_cons_of_not_isLayout ht]

theorem significant_normalise (gap : Option Location) (ts : List Token) :
    significant (normalise gap ts) = significant ts := by
  have hblank : ∀ gap : Option Location, significant (gap.map Token.blank).toList = [] := by
    rintro (_ | l)
    · rfl
    · rfl
  induction ts generalizing gap with
  | nil => rfl
  | cons t ts ih =>
    cases ht : t.isLayout with
    | true =>
      rw [normalise, if_pos ht, ih, significant_cons t,
        significant_of_isLayout (List.forall_mem_singleton.mpr ht), List.nil_append]
    | false =>
      rw [normalise_of_not_isLayout ht, significant_append, hblank, List.nil_append,
        significant_cons_of_not_isLayout ht, significant_cons_of_not_isLayout ht, ih]

theorem isChain_normalise (gap : Option Location) (ts : List Token) :
    (normalise gap ts).IsChain fun t u => ¬ (t.kind = .whitespace ∧ u.kind = .whitespace) := by
  induction ts generalizing gap with
  | nil => exact .nil
  | cons t ts ih =>
    cases ht : t.isLayout with
    | true =>
      rw [normalise, if_pos ht]
      exact ih _
    | false =>
      have hkind := kind_ne_of_not_isLayout ht
      have hrest : (t :: normalise none ts).IsChain
          fun t u => ¬ (t.kind = .whitespace ∧ u.kind = .whitespace) :=
        List.isChain_cons.mpr ⟨fun u _ hblanks => hkind hblanks.1, ih none⟩
      rw [normalise_of_not_isLayout ht]
      cases gap with
      | none => exact hrest
      | some l =>
        refine List.isChain_cons.mpr ⟨fun u hu hblanks => hkind ?_, hrest⟩
        obtain rfl := Option.some.inj hu
        exact hblanks.2

theorem last_normalise (gap : Option Location) (ts : List Token) :
    ∀ t ∈ (normalise gap ts).getLast?, t.isLayout = false := by
  induction ts generalizing gap with
  | nil => exact nofun
  | cons u ts ih =>
    cases hu : u.isLayout with
    | true =>
      rw [normalise, if_pos hu]
      exact ih _
    | false =>
      rw [normalise_of_not_isLayout hu, List.getLast?_append_cons, List.getLast?_cons]
      intro t ht
      cases hlast : (normalise none ts).getLast? with
      | none =>
        rw [hlast] at ht
        cases ht
        exact hu
      | some v =>
        rw [hlast] at ht
        cases ht
        exact ih none v hlast

theorem stretches_normalise_skipLayout (ts : List Token) :
    stretches (normalise none (skipLayout ts)) = stretches ts :=
  (sameStretches_normalise _).1.stretches_eq.symm.trans (stretches_skipLayout ts)

/-- Layout at the start of a body is left out. -/
theorem first_normalise (ts : List Token) :
    ∀ t ∈ (normalise none (skipLayout ts)).head?, t.isLayout = false := by
  cases hskip : skipLayout ts with
  | nil => exact nofun
  | cons u rest =>
    obtain ⟨-, -, -, hu⟩ := exists_of_skipLayout hskip
    rw [normalise_of_not_isLayout hu]
    intro t ht
    cases ht
    exact hu

theorem spaced_normalise (ts : List Token) : Spaced (normalise none (skipLayout ts)) where
  plain t ht := by
    obtain hlayout | ⟨l, rfl⟩ := isLayout_of_mem_normalise ht
    · refine ⟨fun hkind => ?_, fun hkind => ?_⟩
      all_goals
        rw [Token.isLayout, hkind] at hlayout
        cases hlayout
    · exact ⟨(by decide : Kind.whitespace ≠ .comment), (by decide : Kind.whitespace ≠ .newline)⟩
  blank t ht hkind := by
    obtain hlayout | ⟨l, rfl⟩ := isLayout_of_mem_normalise ht
    · exact absurd hkind (kind_ne_of_not_isLayout hlayout)
    · rfl
  first := first_normalise ts
  last := last_normalise none _
  apart := isChain_normalise none _

/-! ## Operators -/

theorem strayStringize?_eq_none_iff : strayStringize? names ts = none ↔
    ∀ before mark after, ts = before ++ mark :: after → mark.isPunctuator "#" = true →
      ∃ t ∈ after.head?, t.isIdentifier = true ∧ t.text ∈ names := by
  have hparameter : ∀ {after : List Token},
      (after.head?.any fun u => u.isIdentifier && names.contains u.text) = true ↔
        ∃ t ∈ after.head?, t.isIdentifier = true ∧ t.text ∈ names := by
    intro after
    simp [Option.any_eq_true]
  induction ts with
  | nil => exact iff_of_true rfl fun before mark after h => by simp at h
  | cons t ts ih =>
    rw [strayStringize?]
    split
    · rename_i hstray
      rw [Bool.and_eq_true, Bool.not_eq_true'] at hstray
      refine iff_of_false (Option.some_ne_none t) fun h => ?_
      have hnext := hparameter.mpr (h [] t ts rfl hstray.1)
      rw [hstray.2] at hnext
      cases hnext
    · rename_i hplain
      rw [Bool.and_eq_true, Bool.not_eq_true', not_and, Bool.not_eq_false] at hplain
      refine ih.trans ⟨?_, ?_⟩
      · intro h before mark after htokens hmark
        cases before with
        | nil =>
          obtain ⟨rfl, rfl⟩ := List.cons.inj htokens
          exact hparameter.mp (hplain hmark)
        | cons u before => exact h before mark after (List.cons.inj htokens).2 hmark
      · intro h before mark after htokens
        exact h (t :: before) mark after (congrArg (t :: ·) htokens)

theorem strayStringize?_significant_eq_none_iff : strayStringize? names (significant ts) = none ↔
    ∀ before mark after, ts = before ++ mark :: after → mark.isPunctuator "#" = true →
      ∃ t ∈ (significant after).head?, t.isIdentifier = true ∧ t.text ∈ names := by
  refine strayStringize?_eq_none_iff.trans ⟨fun h before mark after htokens hmark => ?_,
    fun h before mark after htokens hmark => ?_⟩
  · refine h (significant before) mark (significant after) ?_ hmark
    rw [htokens, significant_append,
      significant_cons_of_not_isLayout (not_isLayout_of_isPunctuator hmark)]
  · obtain ⟨front, behind, hts, -, rfl, -⟩ := exists_of_significant_eq htokens
    exact h front mark behind hts hmark

theorem find?_ends_significant_eq_none_iff (hfirst : ∀ t ∈ ts.head?, t.isLayout = false)
    (hlast : ∀ t ∈ ts.getLast?, t.isLayout = false) :
    ((significant ts).head?.toList ++ (significant ts).getLast?.toList).find?
      (·.isPunctuator "##") = none ↔
        (∀ t ∈ ts.head?, t.isPunctuator "##" = false) ∧
          ∀ t ∈ ts.getLast?, t.isPunctuator "##" = false := by
  rw [head?_significant hfirst, getLast?_significant hlast, List.find?_eq_none]
  simp only [List.mem_append, Option.mem_toList, or_imp, forall_and, Bool.not_eq_true, Option.mem_def]

/-- Where there are other tokens at the ends, layout does not matter to operators. -/
theorem operatorFault?_eq_none_iff (hfirst : ∀ t ∈ ts.head?, t.isLayout = false)
    (hlast : ∀ t ∈ ts.getLast?, t.isLayout = false) :
    operatorFault? shape ts = none ↔ HasOperands shape ts := by
  have hends := find?_ends_significant_eq_none_iff hfirst hlast
  unfold operatorFault?
  constructor
  · intro h
    dsimp only at h
    split at h
    · cases h
    rename_i hnone
    obtain ⟨hhead, hend⟩ := hends.mp hnone
    refine ⟨hhead, hend, fun names variadic hshape => ?_⟩
    subst hshape
    exact strayStringize?_significant_eq_none_iff.mp (Option.map_eq_none_iff.mp h)
  · rintro ⟨hhead, hend, hstringized⟩
    dsimp only
    rw [hends.mpr ⟨hhead, hend⟩]
    cases shape with
    | object => rfl
    | function names variadic =>
      exact Option.map_eq_none_iff.mpr
        (strayStringize?_significant_eq_none_iff.mpr (hstringized names variadic rfl))

theorem operatorFault?_congr (h : significant ts = significant us) :
    operatorFault? shape ts = operatorFault? shape us := by
  unfold operatorFault?
  rw [h]

/-! ## Definitions -/

/-- The operators of a body and of its replacement list are the same. -/
theorem operatorFault?_normalise (shape : Shape) (body : List Token) :
    operatorFault? shape (normalise none (skipLayout body)) = none ↔
      HasOperands shape (trimLayout body) := by
  have hsignificant : significant (normalise none (skipLayout body)) = significant (trimLayout body) := by
    rw [significant_normalise, significant_skipLayout, significant_trimLayout]
  rw [operatorFault?_congr hsignificant]
  exact operatorFault?_eq_none_iff head_trimLayout last_trimLayout

/-- What is read is what is written, if its operators have their operands. -/
theorem parse_eq_ok_iff_writes {location : Option Location} {builtin : Bool} :
    parse tokens location builtin = .ok d ↔
      ∃ name shape body, Writes tokens name shape body ∧ HasOperands shape (trimLayout body) ∧
        d = { name := name.text, shape, replacement := normalise none (skipLayout body),
              location := name.location, builtin } := by
  rw [parse_eq_ok_iff]
  constructor
  · rintro ⟨name, rest, shape, body, hskip, hidentifier, hreserved, hshape, hoperators, rfl⟩
    obtain ⟨layout, rfl, hlayout, -⟩ := exists_of_skipLayout hskip
    exact ⟨name, shape, body, ⟨hidentifier, hreserved, layout, rest, rfl, hlayout,
      shapeOf_eq_ok_iff.mp hshape⟩, (operatorFault?_normalise shape body).mp hoperators, rfl⟩
  · rintro ⟨name, shape, body, ⟨hidentifier, hreserved, layout, rest, rfl, hlayout, hheads⟩, hoperands,
      rfl⟩
    refine ⟨name, rest, shape, body, ?_, hidentifier, hreserved, shapeOf_eq_ok_iff.mpr hheads,
      (operatorFault?_normalise shape body).mpr hoperands, rfl⟩
    exact skipLayout_append_of_significant_nil (significant_of_isLayout hlayout)
      (not_isLayout_of_isIdentifier hidentifier) rest

theorem wellFormed_of_hasOperands (hname : d.name = name.text)
    (hcollects : d.isVariadic = true → d.parameters ≠ [])
    (hbody : d.replacement = normalise none (skipLayout body))
    (hoperands : HasOperands d.shape (trimLayout body)) : d.WellFormed name body := by
  have hspaced := spaced_normalise body
  refine ⟨hname, hcollects, hbody ▸ hspaced, ?_, ?_⟩
  · rw [hbody, stretches_normalise_skipLayout]
  · rw [hbody]
    exact (operatorFault?_eq_none_iff hspaced.first hspaced.last).mp
      ((operatorFault?_normalise d.shape body).mpr hoperands)

/-- Whatever tokens come after `#define`, nothing is looked at that is not there: either they are refused
with a fault, or they write a macro, and what is read is well formed. None are refused that write a macro
whose operators have their operands. -/
theorem parse_wellFormed (tokens : List Token) (location : Option Location) (builtin : Bool) :
    ((∃ fault, parse tokens location builtin = .error fault ∧
        parseChecked tokens location builtin = .error (.raised fault)) ∨
      ∃ d name body, parse tokens location builtin = .ok d ∧
        parseChecked tokens location builtin = .ok d ∧ Writes tokens name d.shape body ∧
        d.WellFormed name body) ∧
    ∀ name shape body, Writes tokens name shape body → HasOperands shape (trimLayout body) →
      ∃ d, parse tokens location builtin = .ok d ∧ d.shape = shape ∧ d.WellFormed name body := by
  rw [parseChecked_eq]
  constructor
  · cases hparse : parse tokens location builtin with
    | error fault => exact .inl ⟨fault, rfl, rfl⟩
    | ok d =>
      have hcollects := parameters_of_parse hparse
      obtain ⟨name, shape, body, hwrites, hoperands, rfl⟩ := parse_eq_ok_iff_writes.mp hparse
      exact .inr ⟨_, name, body, rfl, rfl, hwrites,
        wellFormed_of_hasOperands rfl hcollects rfl hoperands⟩
  · intro name shape body hwrites hoperands
    have hparse : parse tokens location builtin =
        .ok { name := name.text, shape, replacement := normalise none (skipLayout body),
              location := name.location, builtin } :=
      parse_eq_ok_iff_writes.mpr ⟨name, shape, body, hwrites, hoperands, rfl⟩
    exact ⟨_, hparse, rfl,
      wellFormed_of_hasOperands rfl (parameters_of_parse hparse) rfl hoperands⟩

/-- A comment between a parameter and its `...`, and layout around the body, are left out. -/
theorem parse_wellFormed_collecting :
    let p : Location := default
    let comment : Token := ⟨.comment, "/* rest */", p, ∅, false⟩
    let body := [comment, mark p "#", word p "a", comment, mark p "##", word p "b", .blank p]
    let tokens := .blank p :: word p "F" :: mark p "(" ::
      ([word p "a", mark p ",", word p "b", comment, mark p "..."] ++ mark p ")" :: body)
    let shape := Shape.function ["a", "b"] true
    Writes tokens (word p "F") shape body ∧ HasOperands shape (trimLayout body) ∧
      ∃ d, parse tokens none false = .ok d ∧ d.shape = shape ∧ d.WellFormed (word p "F") body := by
  intro p comment body tokens shape
  have hlist : Lists [word p "a", mark p ",", word p "b"] ["a", "b"] :=
    .cons rfl (by decide) rfl (.single rfl (by decide))
  have hheads : Heads (tokens.drop 2) shape body :=
    .function rfl (by decide) rfl (.marked hlist rfl) (by decide)
      (iff_of_true rfl ⟨mark p "...", rfl, rfl⟩)
  have hwrites : Writes tokens (word p "F") shape body :=
    ⟨rfl, by decide, [.blank p], tokens.drop 2, rfl, List.forall_mem_singleton.mpr rfl, hheads⟩
  have hoperands : HasOperands shape (trimLayout body) := (operatorFault?_normalise _ body).mp rfl
  exact ⟨hwrites, hoperands, (parse_wellFormed tokens none false).2 _ _ _ hwrites hoperands⟩

end Definition

end CPreprocessor
