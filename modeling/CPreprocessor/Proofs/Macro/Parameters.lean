import Mathlib
import CPreprocessor.Proofs.Macro.Checked
import CPreprocessor.Proofs.Macro.Reachable
import CPreprocessor.Proofs.Source.SideBySide

/-!
# Parameter lists

The parameters that are read of a list are named apart, and only the last of them may be `...`
(`Definition.IsParameterList`). Written down again they are read back
(`Definition.parameterClause_parameterTokens`).
-/

namespace CPreprocessor

theorem not_isPunctuator_of_isIdentifier {t : Token} (h : t.isIdentifier = true) (text : String) :
    t.isPunctuator text = false :=
  Token.isPunctuator_eq_false_of_kind (by rw [of_decide_eq_true h]; exact nofun)

theorem skipLayout_cons_of_not_isLayout {t : Token} (h : t.isLayout = false) (ts : List Token) :
    skipLayout (t :: ts) = t :: ts :=
  List.dropWhile_cons_of_neg (by rw [h]; exact Bool.false_ne_true)

namespace Definition

variable {tokens rest after : List Token} {t : Token} {p last : Location} {name next : String}
  {seen parameters names : List String} {variadic : Bool}

/-! ## What is read -/

/-- Whether a parameter list may go on with these parameters after those in `seen`. -/
def IsParameterList (seen : List String) (variadic : Bool) : List String → Prop
  | [] => False
  | [name] => name = variadicName ∧ variadic = true ∨ name ≠ variadicName ∧ name ∉ seen
  | name :: next :: names =>
    (name ≠ variadicName ∧ name ∉ seen) ∧
      IsParameterList (seen ++ [name]) variadic (next :: names)

theorem exists_of_parameter (h : parameter seen t rest = .ok (name, variadic, after)) :
    name = variadicName ∧ variadic = true ∨
      (name ≠ variadicName ∧ name ∉ seen) ∧ t.isIdentifier = true ∧ t.text = name := by
  unfold parameter at h
  split at h
  · cases h
    exact .inl ⟨rfl, rfl⟩
  split at h
  · rename_i hidentifier
    right
    split at h
    · cases h
    rename_i hreserved
    split at h
    · cases h
    rename_i hseen
    rw [List.contains_iff_mem] at hseen
    split at h
    · cases h
      exact ⟨⟨hreserved, hseen⟩, hidentifier, rfl⟩
    · split at h
      · cases h
        exact ⟨⟨hreserved, hseen⟩, hidentifier, rfl⟩
      · cases h
        exact ⟨⟨hreserved, hseen⟩, hidentifier, rfl⟩
  · cases h

/-- The parameters that are read make a parameter list, and are named by identifiers of it. -/
theorem exists_of_parameterList
    (h : parameterList last seen tokens = .ok (parameters, variadic, after)) :
    ∃ names, parameters = seen ++ names ∧ IsParameterList seen variadic names ∧
      ∀ name ∈ names, name ≠ variadicName → ∃ t ∈ tokens, t.isIdentifier = true ∧ t.text = name := by
  fun_induction parameterList last seen tokens with
  | case1 => cases h
  | case2 => cases h
  | case3 => cases h
  | case4 seen tokens u rest hskip name variadic' more hparameter separator tail hafter hclose =>
    cases h
    refine ⟨[name], rfl, ?_, fun other hother hname => ?_⟩
    · exact (exists_of_parameter hparameter).imp_right And.left
    · obtain rfl := List.mem_singleton.mp hother
      obtain ⟨-, hidentifier, htext⟩ :=
        (exists_of_parameter hparameter).resolve_left fun hdots => hname hdots.1
      exact ⟨u, (suffix_of_skipLayout hskip).mem List.mem_cons_self, hidentifier, htext⟩
  | case5 seen tokens u rest hskip name variadic' more hparameter separator tail hafter hclose hcomma
      ih =>
    obtain ⟨names, rfl, hlist, hnames⟩ := ih h
    have hrest : tail <:+ tokens := (List.suffix_cons separator tail).trans <|
      (suffix_of_skipLayout hafter).trans <| (suffix_of_parameter hparameter).trans <|
        (List.suffix_cons u rest).trans (suffix_of_skipLayout hskip)
    have hvariadic : variadic' = false := by
      rw [Bool.and_eq_true, Bool.not_eq_true'] at hcomma
      exact hcomma.2
    obtain ⟨hname, hidentifier, htext⟩ := (exists_of_parameter hparameter).resolve_left fun hdots => by
      rw [hdots.2] at hvariadic
      cases hvariadic
    refine ⟨name :: names, by rw [List.append_assoc, List.singleton_append], ?_, ?_⟩
    · cases names with
      | nil => exact hlist.elim
      | cons next names => exact ⟨hname, hlist⟩
    · refine List.forall_mem_cons.mpr ⟨fun _ => ?_, fun other hother hreserved => ?_⟩
      · exact ⟨u, (suffix_of_skipLayout hskip).mem List.mem_cons_self, hidentifier, htext⟩
      · obtain ⟨v, hv, hv'⟩ := hnames other hother hreserved
        exact ⟨v, hrest.mem hv, hv'⟩
  | case6 => cases h

/-- A macro without parameters has an empty list, which collects nothing. -/
def IsParameterClause (variadic : Bool) (names : List String) : Prop :=
  names = [] ∧ variadic = false ∨ IsParameterList [] variadic names

theorem exists_of_parameterClause
    (h : parameterClause last tokens = .ok (parameters, variadic, after)) :
    IsParameterClause variadic parameters ∧
      ∀ name ∈ parameters, name ≠ variadicName →
        ∃ t ∈ tokens, t.isIdentifier = true ∧ t.text = name := by
  unfold parameterClause at h
  split at h
  · cases h
  · rename_i hskip
    split at h
    · cases h
      exact ⟨.inl ⟨rfl, rfl⟩, fun name hname => absurd hname List.not_mem_nil⟩
    · obtain ⟨names, rfl, hlist, hnames⟩ := exists_of_parameterList h
      refine ⟨.inr hlist, fun name hname hreserved => ?_⟩
      obtain ⟨u, hu, hu'⟩ := hnames name hname hreserved
      exact ⟨u, (suffix_of_skipLayout hskip).mem hu, hu'⟩

/-! ## What is written -/

section
variable (p : Location)

/-- A name at a place. -/
def word (name : String) : Token := { kind := .identifier, text := name, location := p }

/-- A punctuator at a place. -/
def mark (text : String) : Token := { kind := .punctuator, text, location := p }

/-- The last parameter as it is written. -/
def lastParameterTokens (variadic : Bool) (name : String) : List Token :=
  if !variadic then [word p name]
  else if name = variadicName then [mark p "..."] else [word p name, mark p "..."]

/-- The parameters as they are written. -/
def parameterTokens (variadic : Bool) : List String → List Token
  | [] => []
  | [name] => lastParameterTokens p variadic name
  | name :: next :: names =>
    word p name :: mark p "," :: .blank p :: parameterTokens variadic (next :: names)

end

theorem renderParameters_cons_cons (name next : String) (names : List String) (variadic : Bool) :
    renderParameters (name :: next :: names) variadic =
      name :: renderParameters (next :: names) variadic := by
  cases variadic with
  | false => rfl
  | true =>
    rw [renderParameters, renderParameters, List.dropLast_cons_cons, List.getLastD_eq_getLast?,
      List.getLast?_cons_cons, ← List.getLastD_eq_getLast?]
    rfl

theorem renderParameters_ne_nil (h : names ≠ []) (variadic : Bool) :
    renderParameters names variadic ≠ [] := by
  cases variadic with
  | false => exact h
  | true => exact List.append_ne_nil_of_right_ne_nil _ (List.cons_ne_nil _ _)

theorem spell_parameterTokens (h : variadic = true → names ≠ []) :
    spell (parameterTokens p variadic names) =
      (", ".intercalate (renderParameters names variadic)).toList := by
  fun_induction parameterTokens p variadic names with
  | case1 =>
    cases variadic with
    | false => rfl
    | true => exact absurd rfl (h rfl)
  | case2 name =>
    cases variadic with
    | false => simp [lastParameterTokens, renderParameters, spell, word]
    | true =>
      by_cases hname : name = variadicName
      · simp [lastParameterTokens, renderParameters, spell, mark, hname]
      · simp [lastParameterTokens, renderParameters, spell, word, mark, hname]
  | case3 name next names ih =>
    have hcomma : ", ".toList = ",".toList ++ " ".toList := by decide
    rw [renderParameters_cons_cons,
      String.intercalate_cons_of_ne_nil (renderParameters_ne_nil (List.cons_ne_nil _ _) _),
      String.toList_append, String.toList_append, ← ih fun _ => List.cons_ne_nil _ _,
      spell_cons, spell_cons, spell_cons, hcomma, List.append_assoc, List.append_assoc]
    rfl

/-! ## Reading back -/

theorem parameterList_congr {us : List Token} (h : skipLayout tokens = skipLayout us) :
    parameterList last seen tokens = parameterList last seen us := by
  cases hskip : skipLayout us with
  | nil => rw [parameterList_nil _ _ hskip, parameterList_nil _ _ (h.trans hskip)]
  | cons t rest => rw [parameterList_cons _ _ hskip, parameterList_cons _ _ (h.trans hskip)]

/-- A new identifier is a parameter, whatever comes behind. -/
theorem parameter_of_isIdentifier {u : Token} (hidentifier : t.isIdentifier = true)
    (hname : t.text ≠ variadicName) (hnew : t.text ∉ seen) (hskip : skipLayout rest = u :: after) :
    parameter seen t rest =
      if u.isPunctuator "..." then .ok (t.text, true, after) else .ok (t.text, false, u :: after) := by
  have hseen : seen.contains t.text = false :=
    Bool.eq_false_iff.mpr fun hcontains => hnew (List.contains_iff_mem.mp hcontains)
  rw [parameter, not_isPunctuator_of_isIdentifier hidentifier, if_neg Bool.false_ne_true, if_pos hidentifier,
    if_neg hname, hseen, if_neg Bool.false_ne_true, hskip]

theorem parameter_word (hname : name ≠ variadicName ∧ name ∉ seen) (rest : List Token)
    (hlayout : t.isLayout = false) :
    parameter seen (word p name) (t :: rest) =
      if t.isPunctuator "..." then .ok (name, true, rest) else .ok (name, false, t :: rest) :=
  parameter_of_isIdentifier rfl hname.1 hname.2 (skipLayout_cons_of_not_isLayout hlayout rest)

theorem parameterList_parameterTokens (h : IsParameterList seen variadic names)
    (after : List Token) :
    parameterList last seen (parameterTokens p variadic names ++ mark p ")" :: after) =
      .ok (seen ++ names, variadic, after) := by
  fun_induction IsParameterList seen variadic names with
  | case1 => exact h.elim
  | case2 seen name =>
    rw [parameterTokens, lastParameterTokens]
    cases variadic with
    | false =>
      have hname := h.resolve_left nofun
      rw [Bool.not_false, if_pos rfl, List.singleton_append, parameterList_cons last seen rfl,
        parameter_word hname after rfl]
      rfl
    | true =>
      rw [Bool.not_true, if_neg Bool.false_ne_true]
      by_cases hreserved : name = variadicName
      · rw [if_pos hreserved, List.singleton_append, parameterList_cons last seen rfl, hreserved]
        rfl
      · have hname := h.resolve_left fun hdots => hreserved hdots.1
        rw [if_neg hreserved, List.cons_append, List.singleton_append, parameterList_cons last seen rfl,
          parameter_word hname _ rfl]
        rfl
  | case3 seen name next names ih =>
    obtain ⟨hname, hnames⟩ := h
    have hblank : parameterList last (seen ++ [name]) (.blank p ::
        (parameterTokens p variadic (next :: names) ++ mark p ")" :: after)) =
          .ok (seen ++ name :: next :: names, variadic, after) := by
      have hskip : ∀ ts, skipLayout (.blank p :: ts) = skipLayout ts := fun _ => rfl
      rw [parameterList_congr (hskip _), ih hnames, List.append_assoc, List.singleton_append]
    rw [parameterTokens, List.cons_append, List.cons_append, List.cons_append,
      parameterList_cons last seen rfl, parameter_word hname _ rfl]
    exact hblank

/-- What is written of a parameter list begins with a name or with `...`. -/
theorem exists_parameterTokens (h : IsParameterList seen variadic names) :
    ∃ t ts, parameterTokens p variadic names = t :: ts ∧ t.isLayout = false ∧
      t.isPunctuator ")" = false := by
  fun_cases IsParameterList seen variadic names with
  | case1 => exact h.elim
  | case2 name =>
    rw [parameterTokens, lastParameterTokens]
    split
    · exact ⟨_, _, rfl, rfl, rfl⟩
    split
    · exact ⟨_, _, rfl, rfl, rfl⟩
    · exact ⟨_, _, rfl, rfl, rfl⟩
  | case3 name next names => exact ⟨_, _, rfl, rfl, rfl⟩

theorem parameterClause_parameterTokens (h : IsParameterClause variadic names)
    (after : List Token) :
    parameterClause last (parameterTokens p variadic names ++ mark p ")" :: after) =
      .ok (names, variadic, after) := by
  obtain ⟨rfl, rfl⟩ | hlist := h
  · rfl
  · have hread : parameterList last [] (parameterTokens p variadic names ++ mark p ")" :: after) =
        .ok (names, variadic, after) := parameterList_parameterTokens hlist after
    obtain ⟨t, ts, htokens, hlayout, hclose⟩ := exists_parameterTokens (p := p) hlist
    rw [htokens, List.cons_append] at hread ⊢
    rw [parameterClause, skipLayout_cons_of_not_isLayout hlayout]
    dsimp only
    rw [hclose, if_neg Bool.false_ne_true, hread]

end Definition

end CPreprocessor
