import CPreprocessor.Proofs.Expansion.Collection
import CPreprocessor.Proofs.Macro.Parameters

/-!
# The grammar of parameter lists

`Definition.DerivesParameters` says which tokens, layout aside, write which parameters, and
`Definition.Heads` what the tokens after the name of a macro say of its shape. The shape that is read
is the one that they write (`Definition.shapeOf_eq_ok_iff`).

A list is read from the left, one parameter and a comma at a time. `Definition.Sequence` is the same
grammar in that order (`Definition.derivesParameters_iff`).
-/

namespace CPreprocessor

variable {tokens rest after inside body ts us : List Token} {t comma dots closing : Token}

/-! ## Layout -/

theorem not_isLayout_of_isIdentifier (h : t.isIdentifier = true) : t.isLayout = false := by
  rw [Token.isLayout, of_decide_eq_true h]
  rfl

theorem not_isLayout_of_isPunctuator {text : String} (h : t.isPunctuator text = true) :
    t.isLayout = false := by
  rw [Token.isLayout, (Token.isPunctuator_iff.mp h).1]
  rfl

theorem not_isPunctuator_of_ne {text other : String} (h : t.isPunctuator text = true)
    (hne : text ≠ other) : t.isPunctuator other = false :=
  Bool.eq_false_iff.mpr fun hother => hne (Token.text_eq_of_isPunctuator h hother)

theorem exists_of_skipLayout (h : skipLayout tokens = t :: rest) :
    ∃ layout, tokens = layout ++ t :: rest ∧ (∀ u ∈ layout, u.isLayout = true) ∧
      t.isLayout = false := by
  refine ⟨tokens.takeWhile Token.isLayout, ?_, fun u hu => List.mem_takeWhile_imp hu, ?_⟩
  · rw [← h, skipLayout, List.takeWhile_append_dropWhile]
  · exact head?_dropWhile_eq_false (by rw [← skipLayout, h]; rfl)

theorem significant_cons_of_not_isLayout (h : t.isLayout = false) (ts : List Token) :
    significant (t :: ts) = t :: significant ts := by
  rw [significant, List.filter_cons_of_pos (by rw [h]; rfl), significant]

theorem exists_of_significant_eq (h : significant tokens = us ++ t :: ts) :
    ∃ front behind, tokens = front ++ t :: behind ∧ significant front = us ∧
      significant behind = ts ∧ t.isLayout = false := by
  obtain ⟨front, more, rfl, rfl, hmore⟩ := List.filter_eq_append_iff.mp h
  obtain ⟨layout, behind, rfl, hlayout, ht, rfl⟩ := List.filter_eq_cons_iff.mp hmore
  have hnone : significant layout = [] := List.filter_eq_nil_iff.mpr hlayout
  refine ⟨front ++ layout, behind, (List.append_assoc ..).symm, ?_, rfl, (Bool.not_eq_true' _).mp ht⟩
  rw [significant_append, hnone, List.append_nil, significant]

theorem skipLayout_append_of_significant_nil (h : significant inside = []) (ht : t.isLayout = false)
    (after : List Token) : skipLayout (inside ++ t :: after) = t :: after := by
  rw [skipLayout, List.dropWhile_append_of_pos fun u hu => ?_, ← skipLayout,
    skipLayout_cons_of_not_isLayout ht]
  simpa using List.filter_eq_nil_iff.mp h u hu

/-- The first significant token, and what is left behind it. -/
theorem exists_skipLayout_append (h : significant inside = t :: ts) :
    ∃ rest, significant rest = ts ∧ ∀ after, skipLayout (inside ++ after) = t :: (rest ++ after) := by
  have hnone : significant inside = [] ++ t :: ts := h
  obtain ⟨layout, rest, rfl, hlayout, hrest, ht⟩ := exists_of_significant_eq hnone
  refine ⟨rest, hrest, fun after => ?_⟩
  rw [List.append_assoc, List.cons_append, skipLayout_append_of_significant_nil hlayout ht]

namespace Definition

variable {last : Location} {name : String} {seen parameters names : List String} {variadic : Bool}

/-! ## Grammar -/

/-- Identifiers with commas between them, one at least, none of which is `__VA_ARGS__`. -/
inductive Lists : List Token → List String → Prop
  | single {t : Token} (hidentifier : t.isIdentifier = true) (hname : t.text ≠ variadicName) :
    Lists [t] [t.text]
  | cons {t comma : Token} {ts : List Token} {names : List String}
    (hidentifier : t.isIdentifier = true) (hname : t.text ≠ variadicName)
    (hcomma : comma.isPunctuator "," = true) (h : Lists ts names) :
    Lists (t :: comma :: ts) (t.text :: names)

/-- The parameters that tokens write. A `...` that is no mark of the identifier before it is a parameter
itself, called `__VA_ARGS__`. -/
inductive DerivesParameters : List Token → List String → Prop
  | nothing : DerivesParameters [] []
  | list {ts : List Token} {names : List String} (h : Lists ts names) : DerivesParameters ts names
  | dots {dots : Token} (hdots : dots.isPunctuator "..." = true) :
    DerivesParameters [dots] [variadicName]
  | listAndDots {ts : List Token} {names : List String} {comma dots : Token} (h : Lists ts names)
    (hcomma : comma.isPunctuator "," = true) (hdots : dots.isPunctuator "..." = true) :
    DerivesParameters (ts ++ [comma, dots]) (names ++ [variadicName])
  | marked {ts : List Token} {names : List String} {dots : Token} (h : Lists ts names)
    (hdots : dots.isPunctuator "..." = true) : DerivesParameters (ts ++ [dots]) names

def EndsInDots (ts : List Token) : Prop := ∃ dots ∈ ts.getLast?, dots.isPunctuator "..." = true

/-- The shape of a macro with these tokens after its name, and the body that they leave. Only a `(` that
comes right after the name begins a parameter list, which reaches to the first `)`. -/
inductive Heads : List Token → Shape → List Token → Prop
  | object {body : List Token} (hopening : ∀ t ∈ body.head?, t.isPunctuator "(" = false) :
    Heads body .object body
  | function {opening closing : Token} {inside body : List Token} {names : List String}
    {variadic : Bool} (hopening : opening.isPunctuator "(" = true)
    (hinside : ∀ t ∈ inside, t.isPunctuator ")" = false) (hclosing : closing.isPunctuator ")" = true)
    (derives : DerivesParameters (significant inside) names) (distinct : names.Nodup)
    (collects : variadic = true ↔ EndsInDots (significant inside)) :
    Heads (opening :: (inside ++ closing :: body)) (.function names variadic) body

/-! ## One parameter at a time -/

/-- A parameter, and whether it collects. -/
inductive Single : List Token → String → Bool → Prop
  | dots {dots : Token} (hdots : dots.isPunctuator "..." = true) : Single [dots] variadicName true
  | plain {t : Token} (hidentifier : t.isIdentifier = true) (hname : t.text ≠ variadicName) :
    Single [t] t.text false
  | marked {t dots : Token} (hidentifier : t.isIdentifier = true) (hname : t.text ≠ variadicName)
    (hdots : dots.isPunctuator "..." = true) : Single [t, dots] t.text true

/-- Parameters with commas between them, and whether the last one collects. -/
inductive Sequence : List Token → List String → Bool → Prop
  | last {ts : List Token} {name : String} {variadic : Bool} (h : Single ts name variadic) :
    Sequence ts [name] variadic
  | cons {us ts : List Token} {comma : Token} {name : String} {names : List String} {variadic : Bool}
    (h : Single us name false) (hcomma : comma.isPunctuator "," = true)
    (hrest : Sequence ts names variadic) : Sequence (us ++ comma :: ts) (name :: names) variadic

theorem endsInDots_singleton : EndsInDots [t] ↔ t.isPunctuator "..." = true := by
  simp [EndsInDots]

theorem Single.exists_cons (h : Single ts name variadic) : ∃ t us, ts = t :: us := by
  cases h with
  | dots => exact ⟨_, _, rfl⟩
  | plain => exact ⟨_, _, rfl⟩
  | marked => exact ⟨_, _, rfl⟩

theorem Sequence.exists_cons (h : Sequence ts names variadic) : ∃ t us, ts = t :: us := by
  cases h with
  | last h => exact h.exists_cons
  | cons h =>
    obtain ⟨t, us, rfl⟩ := h.exists_cons
    exact ⟨t, _, rfl⟩

theorem Single.not_closing (h : Single ts name variadic) : ∀ t ∈ ts, t.isPunctuator ")" = false := by
  have hdots : ∀ {t : Token}, t.isPunctuator "..." = true → t.isPunctuator ")" = false :=
    fun h => not_isPunctuator_of_ne h (by decide)
  cases h with
  | dots h => exact List.forall_mem_singleton.mpr (hdots h)
  | plain h => exact List.forall_mem_singleton.mpr (not_isPunctuator_of_isIdentifier h _)
  | marked h _ h' =>
    exact List.forall_mem_cons.mpr
      ⟨not_isPunctuator_of_isIdentifier h _, List.forall_mem_singleton.mpr (hdots h')⟩

theorem Sequence.not_closing (h : Sequence ts names variadic) :
    ∀ t ∈ ts, t.isPunctuator ")" = false := by
  induction h with
  | last h => exact h.not_closing
  | cons h hcomma _ ih =>
    exact List.forall_mem_append.mpr ⟨h.not_closing,
      List.forall_mem_cons.mpr ⟨not_isPunctuator_of_ne hcomma (by decide), ih⟩⟩

theorem DerivesParameters.cons (hidentifier : t.isIdentifier = true) (hname : t.text ≠ variadicName)
    (hcomma : comma.isPunctuator "," = true) (h : DerivesParameters ts names) (hne : ts ≠ []) :
    DerivesParameters (t :: comma :: ts) (t.text :: names) := by
  cases h with
  | nothing => exact absurd rfl hne
  | list h => exact .list (.cons hidentifier hname hcomma h)
  | dots hdots => exact .listAndDots (.single hidentifier hname) hcomma hdots
  | listAndDots h hcomma' hdots => exact .listAndDots (.cons hidentifier hname hcomma h) hcomma' hdots
  | marked h hdots => exact .marked (.cons hidentifier hname hcomma h) hdots

theorem Sequence.derives (h : Sequence ts names variadic) : DerivesParameters ts names := by
  induction h with
  | last h =>
    cases h with
    | dots hdots => exact .dots hdots
    | plain hidentifier hname => exact .list (.single hidentifier hname)
    | marked hidentifier hname hdots => exact .marked (.single hidentifier hname) hdots
  | cons h hcomma hrest ih =>
    obtain ⟨u, us, rfl⟩ := hrest.exists_cons
    cases h with
    | plain hidentifier hname => exact ih.cons hidentifier hname hcomma (List.cons_ne_nil u us)

theorem Sequence.collects (h : Sequence ts names variadic) :
    variadic = true ↔ EndsInDots ts := by
  induction h with
  | last h =>
    cases h with
    | dots hdots => exact iff_of_true rfl (endsInDots_singleton.mpr hdots)
    | plain hidentifier => rw [endsInDots_singleton, not_isPunctuator_of_isIdentifier hidentifier]
    | marked _ _ hdots => exact iff_of_true rfl ⟨_, rfl, hdots⟩
  | cons _ _ hrest ih =>
    obtain ⟨u, us, rfl⟩ := hrest.exists_cons
    rw [ih, EndsInDots, EndsInDots, List.getLast?_append_cons, List.getLast?_cons_cons]

theorem Sequence.plain_cons (hidentifier : t.isIdentifier = true) (hname : t.text ≠ variadicName)
    (hcomma : comma.isPunctuator "," = true) (h : Sequence ts names variadic) :
    Sequence (t :: comma :: ts) (t.text :: names) variadic :=
  show Sequence ([t] ++ comma :: ts) _ _ from .cons (.plain hidentifier hname) hcomma h

theorem Lists.sequence (h : Lists ts names) : Sequence ts names false := by
  induction h with
  | single hidentifier hname => exact .last (.plain hidentifier hname)
  | cons hidentifier hname hcomma _ ih => exact .plain_cons hidentifier hname hcomma ih

theorem Lists.sequence_dots (h : Lists ts names) (hcomma : comma.isPunctuator "," = true)
    (hdots : dots.isPunctuator "..." = true) :
    Sequence (ts ++ [comma, dots]) (names ++ [variadicName]) true := by
  induction h with
  | single hidentifier hname => exact .plain_cons hidentifier hname hcomma (.last (.dots hdots))
  | cons hidentifier hname hcomma' _ ih => exact .plain_cons hidentifier hname hcomma' ih

theorem Lists.sequence_marked (h : Lists ts names) (hdots : dots.isPunctuator "..." = true) :
    Sequence (ts ++ [dots]) names true := by
  induction h with
  | single hidentifier hname => exact .last (.marked hidentifier hname hdots)
  | cons hidentifier hname hcomma _ ih => exact .plain_cons hidentifier hname hcomma ih

/-- Both orders give the same lists. -/
theorem derivesParameters_iff :
    (DerivesParameters ts names ∧ (variadic = true ↔ EndsInDots ts)) ↔
      ts = [] ∧ names = [] ∧ variadic = false ∨ Sequence ts names variadic := by
  constructor
  · rintro ⟨h, hcollects⟩
    have hsequence : ∀ {v : Bool}, Sequence ts names v → Sequence ts names variadic := fun h => by
      rwa [Bool.eq_iff_iff.mpr (hcollects.trans h.collects.symm)]
    cases h with
    | nothing =>
      refine .inl ⟨rfl, rfl, Bool.eq_false_iff.mpr fun hvariadic => ?_⟩
      obtain ⟨dots, hmem, -⟩ := hcollects.mp hvariadic
      cases hmem
    | list h => exact .inr (hsequence h.sequence)
    | dots hdots => exact .inr (hsequence (.last (.dots hdots)))
    | listAndDots h hcomma hdots => exact .inr (hsequence (h.sequence_dots hcomma hdots))
    | marked h hdots => exact .inr (hsequence (h.sequence_marked hdots))
  · rintro (⟨rfl, rfl, rfl⟩ | h)
    · exact ⟨.nothing, by simp [EndsInDots]⟩
    · exact ⟨h.derives, h.collects⟩

/-! ## What is read -/

/-- The tokens of a parameter that is read. -/
theorem exists_of_parameter_eq_ok (h : parameter seen t rest = .ok (name, variadic, after)) :
    ∃ used, rest = used ++ after ∧ Single (t :: significant used) name variadic := by
  unfold parameter at h
  split at h
  · rename_i hdots
    cases h
    exact ⟨[], rfl, .dots hdots⟩
  split at h
  · rename_i hidentifier
    split at h
    · cases h
    rename_i hname
    split at h
    · cases h
    split at h
    · rename_i hskip
      cases h
      refine ⟨rest, (List.append_nil _).symm, ?_⟩
      rw [significant_of_isLayout (List.dropWhile_eq_nil_iff.mp hskip)]
      exact .plain hidentifier hname
    · rename_i dots more hskip
      obtain ⟨layout, rfl, hlayout, -⟩ := exists_of_skipLayout hskip
      split at h
      · rename_i hdots
        cases h
        refine ⟨layout ++ [dots], by rw [List.append_assoc, List.singleton_append], ?_⟩
        rw [significant_append, significant_of_isLayout hlayout, List.nil_append,
          significant_cons_of_not_isLayout (not_isLayout_of_isPunctuator hdots)]
        exact .marked hidentifier hname hdots
      · cases h
        refine ⟨layout, rfl, ?_⟩
        rw [significant_of_isLayout hlayout]
        exact .plain hidentifier hname
  · cases h

/-- A parameter with the layout around it, up to the token behind. -/
theorem exists_of_parameter_between {separator u : Token} {more : List Token}
    (hskip : skipLayout tokens = u :: rest)
    (hparameter : parameter seen u rest = .ok (name, variadic, more))
    (hafter : skipLayout more = separator :: after) :
    ∃ front, tokens = front ++ separator :: after ∧ Single (significant front) name variadic := by
  obtain ⟨layout, rfl, hlayout, hu⟩ := exists_of_skipLayout hskip
  obtain ⟨used, rfl, hsingle⟩ := exists_of_parameter_eq_ok hparameter
  obtain ⟨gap, rfl, hgap, -⟩ := exists_of_skipLayout hafter
  refine ⟨layout ++ u :: (used ++ gap), by simp only [List.append_assoc, List.cons_append], ?_⟩
  rwa [significant_append, significant_of_isLayout hlayout, List.nil_append,
    significant_cons_of_not_isLayout hu, significant_append, significant_of_isLayout hgap,
    List.append_nil]

/-- The tokens of a list that is read. -/
theorem exists_of_parameterList_eq_ok
    (h : parameterList last seen tokens = .ok (parameters, variadic, after)) :
    ∃ inside closing names, tokens = inside ++ closing :: after ∧
      closing.isPunctuator ")" = true ∧ parameters = seen ++ names ∧
      Sequence (significant inside) names variadic := by
  fun_induction parameterList last seen tokens with
  | case1 => cases h
  | case2 => cases h
  | case3 => cases h
  | case4 seen tokens u rest hskip name variadic' more hparameter separator tail hafter hclose =>
    cases h
    obtain ⟨front, htokens, hsingle⟩ := exists_of_parameter_between hskip hparameter hafter
    exact ⟨front, separator, [name], htokens, hclose, rfl, .last hsingle⟩
  | case5 seen tokens u rest hskip name variadic' more hparameter separator tail hafter hclose hcomma
      ih =>
    rw [Bool.and_eq_true, Bool.not_eq_true'] at hcomma
    obtain ⟨hcomma, rfl⟩ := hcomma
    obtain ⟨front, rfl, hsingle⟩ := exists_of_parameter_between hskip hparameter hafter
    obtain ⟨inside, closing, names, rfl, hclosing, rfl, hrest⟩ := ih h
    refine ⟨front ++ separator :: inside, closing, name :: names, ?_, hclosing, ?_, ?_⟩
    · rw [List.append_assoc, List.cons_append]
    · rw [List.append_assoc, List.singleton_append]
    · rw [significant_append, significant_cons_of_not_isLayout (not_isLayout_of_isPunctuator hcomma)]
      exact .cons hsingle hcomma hrest
  | case6 => cases h

theorem IsParameterList.nodup (h : IsParameterList seen variadic names) (hseen : seen.Nodup)
    (hreserved : variadicName ∉ seen) : (seen ++ names).Nodup := by
  have hadd : ∀ {seen : List String} {name : String}, seen.Nodup → name ∉ seen →
      (seen ++ [name]).Nodup := fun hseen hname =>
    List.nodup_append.mpr ⟨hseen, List.nodup_singleton _, fun a ha b hb hab => hname (by
      rwa [← List.mem_singleton.mp hb, ← hab])⟩
  fun_induction IsParameterList seen variadic names with
  | case1 => exact h.elim
  | case2 seen name =>
    obtain ⟨rfl, -⟩ | ⟨-, hname⟩ := h
    · exact hadd hseen hreserved
    · exact hadd hseen hname
  | case3 seen name next names ih =>
    obtain ⟨⟨hname, hnew⟩, hnames⟩ := h
    have hmore := ih hnames (hadd hseen hnew) fun hmem => (List.mem_append.mp hmem).elim hreserved
      fun hmem => hname (List.mem_singleton.mp hmem).symm
    rwa [List.append_assoc, List.singleton_append] at hmore

/-! ## What is written -/

section
variable {front : List Token} {separator : Token}

/-- A new parameter is read up to the token behind. -/
theorem exists_parameter_of_single (h : Single (significant front) name variadic) (hnew : name ∉ seen)
    (hlayout : separator.isLayout = false) (hdots : separator.isPunctuator "..." = false)
    (after : List Token) :
    ∃ u rest more, skipLayout (front ++ separator :: after) = u :: rest ∧
      parameter seen u rest = .ok (name, variadic, more) ∧ skipLayout more = separator :: after := by
  generalize hts : significant front = ts at h
  cases h with
  | dots hmark =>
    obtain ⟨rest, hrest, hread⟩ := exists_skipLayout_append hts
    exact ⟨_, _, _, hread _, if_pos hmark, skipLayout_append_of_significant_nil hrest hlayout after⟩
  | plain hidentifier hname =>
    obtain ⟨rest, hrest, hread⟩ := exists_skipLayout_append hts
    have hparameter := parameter_of_isIdentifier hidentifier hname hnew
      (skipLayout_append_of_significant_nil hrest hlayout after)
    rw [hdots, if_neg Bool.false_ne_true] at hparameter
    exact ⟨_, _, _, hread _, hparameter, skipLayout_cons_of_not_isLayout hlayout after⟩
  | marked hidentifier hname hmark =>
    obtain ⟨rest, hrest, hread⟩ := exists_skipLayout_append hts
    obtain ⟨more, hmore, hread'⟩ := exists_skipLayout_append hrest
    have hparameter := parameter_of_isIdentifier hidentifier hname hnew (hread' (separator :: after))
    rw [if_pos hmark] at hparameter
    exact ⟨_, _, _, hread _, hparameter, skipLayout_append_of_significant_nil hmore hlayout after⟩

/-- Behind a new parameter a list ends or goes on. -/
theorem parameterList_of_single (h : Single (significant front) name variadic) (hnew : name ∉ seen)
    (hlayout : separator.isLayout = false) (hdots : separator.isPunctuator "..." = false)
    (after : List Token) :
    parameterList last seen (front ++ separator :: after) =
      if separator.isPunctuator ")" then .ok (seen ++ [name], variadic, after)
      else if separator.isPunctuator "," && !variadic then parameterList last (seen ++ [name]) after
      else .error ⟨.expectedSeparator variadic separator.text, separator.location⟩ := by
  obtain ⟨u, rest, more, hskip, hparameter, hmore⟩ :=
    exists_parameter_of_single h hnew hlayout hdots after
  rw [parameterList_cons last seen hskip, hparameter]
  dsimp only
  rw [hmore]

end

/-- A list of new parameters is read up to its `)`. -/
theorem parameterList_of_sequence (h : Sequence (significant inside) names variadic)
    (hnew : (seen ++ names).Nodup) (hclosing : closing.isPunctuator ")" = true) (body : List Token) :
    parameterList last seen (inside ++ closing :: body) = .ok (seen ++ names, variadic, body) := by
  have hname : ∀ {seen : List String} {name : String} {names : List String},
      (seen ++ name :: names).Nodup → name ∉ seen :=
    fun hnew hmem => (List.nodup_append.mp hnew).2.2 _ hmem _ List.mem_cons_self rfl
  generalize hts : significant inside = ts at h
  induction h generalizing inside seen with
  | last h =>
    subst hts
    rw [parameterList_of_single h (hname hnew) (not_isLayout_of_isPunctuator hclosing)
      (not_isPunctuator_of_ne hclosing (by decide)), if_pos hclosing]
  | cons h hcomma _ ih =>
    -- layout before the comma goes with the parameter, layout behind it with the rest
    obtain ⟨front, behind, rfl, rfl, hbehind, hlayout⟩ := exists_of_significant_eq hts
    have hrest := ih (List.append_cons .. ▸ hnew) hbehind
    rw [List.append_assoc, List.cons_append, parameterList_of_single h (hname hnew) hlayout
      (not_isPunctuator_of_ne hcomma (by decide)), not_isPunctuator_of_ne hcomma (by decide),
      if_neg Bool.false_ne_true, hcomma, Bool.not_false, Bool.and_self, if_pos rfl, hrest,
      ← List.append_cons]

/-! ## Shapes -/

theorem parameterClause_of_skipLayout {u : Token} (h : skipLayout tokens = u :: rest) :
    parameterClause last tokens =
      if u.isPunctuator ")" then .ok ([], false, rest) else parameterList last [] tokens := by
  have hlist : parameterList last [] (u :: rest) = parameterList last [] tokens := by
    refine parameterList_congr ?_
    rw [← h]
    exact List.dropWhile_idempotent ..
  rw [parameterClause, h]
  dsimp only
  rw [hlist]

/-- What is read behind a `(`. -/
theorem parameterClause_eq_ok_iff :
    parameterClause last tokens = .ok (names, variadic, body) ↔
      ∃ inside closing, tokens = inside ++ closing :: body ∧
        (∀ t ∈ inside, t.isPunctuator ")" = false) ∧ closing.isPunctuator ")" = true ∧
        DerivesParameters (significant inside) names ∧ names.Nodup ∧
        (variadic = true ↔ EndsInDots (significant inside)) := by
  constructor
  · intro h
    cases hskip : skipLayout tokens with
    | nil =>
      rw [parameterClause, hskip] at h
      cases h
    | cons u rest =>
      have hdistinct : names.Nodup := by
        obtain ⟨rfl, -⟩ | hlist := (exists_of_parameterClause h).1
        · exact List.nodup_nil
        · exact hlist.nodup List.nodup_nil List.not_mem_nil
      rw [parameterClause_of_skipLayout hskip] at h
      split at h
      · rename_i hclosing
        cases h
        obtain ⟨layout, rfl, hlayout, -⟩ := exists_of_skipLayout hskip
        obtain ⟨hderives, hcollects⟩ := derivesParameters_iff.mpr
          (.inl ⟨significant_of_isLayout hlayout, rfl, rfl⟩)
        exact ⟨layout, u, rfl, fun t ht => not_isPunctuator_of_isLayout (hlayout t ht) _, hclosing,
          hderives, hdistinct, hcollects⟩
      · obtain ⟨inside, closing, names, rfl, hclosing, rfl, hsequence⟩ :=
          exists_of_parameterList_eq_ok h
        refine ⟨inside, closing, rfl, fun t ht => ?_, hclosing, hsequence.derives, hdistinct,
          hsequence.collects⟩
        cases hlayout : t.isLayout with
        | true => exact not_isPunctuator_of_isLayout hlayout _
        | false =>
          exact hsequence.not_closing t (List.mem_filter.mpr ⟨ht, by rw [hlayout]; rfl⟩)
  · rintro ⟨inside, closing, rfl, hinside, hclosing, hderives, hdistinct, hcollects⟩
    obtain ⟨hnone, rfl, rfl⟩ | hsequence := derivesParameters_iff.mp ⟨hderives, hcollects⟩
    · rw [parameterClause_of_skipLayout (skipLayout_append_of_significant_nil hnone
        (not_isLayout_of_isPunctuator hclosing) body), if_pos hclosing]
    · obtain ⟨u, us, hus⟩ := hsequence.exists_cons
      obtain ⟨rest, -, hread⟩ := exists_skipLayout_append hus
      have hu : u ∈ inside := (List.mem_filter.mp (hus ▸ List.mem_cons_self)).1
      rw [parameterClause_of_skipLayout (hread _), hinside u hu, if_neg Bool.false_ne_true]
      have hnew : ([] ++ names).Nodup := hdistinct
      exact parameterList_of_sequence hsequence hnew hclosing body

/-- The shape that is read is the one that is written. -/
theorem shapeOf_eq_ok_iff {shape : Shape} :
    shapeOf last tokens = .ok (shape, body) ↔ Heads tokens shape body := by
  constructor
  · intro h
    unfold shapeOf at h
    split at h
    · cases h
      exact .object fun t ht => absurd ht (Option.not_mem_none t)
    split at h
    · rename_i hopening
      split at h
      · cases h
      · rename_i hclause
        cases h
        obtain ⟨inside, closing, rfl, hinside, hclosing, hderives, hdistinct, hcollects⟩ :=
          parameterClause_eq_ok_iff.mp hclause
        exact .function hopening hinside hclosing hderives hdistinct hcollects
    · rename_i hopening
      cases h
      refine .object fun t ht => ?_
      obtain rfl := Option.some.inj ht
      exact Bool.not_eq_true _ |>.mp hopening
  · intro h
    cases h with
    | object hopening =>
      cases tokens with
      | nil => rfl
      | cons t rest => exact if_neg (by rw [hopening t rfl]; exact Bool.false_ne_true)
    | function hopening hinside hclosing hderives hdistinct hcollects =>
      rw [shapeOf, if_pos hopening, parameterClause_eq_ok_iff.mpr
        ⟨_, _, rfl, hinside, hclosing, hderives, hdistinct, hcollects⟩]

end Definition

end CPreprocessor
