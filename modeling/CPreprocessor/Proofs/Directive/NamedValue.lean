import Mathlib.Logic.Relation
import CPreprocessor.Proofs.Condition.Placement
import CPreprocessor.Proofs.Directive.DefinedMacro
import CPreprocessor.Proofs.Expansion.Limit

/-!
# Macros that are named values

A macro without parameters whose replacement list is one operand, a constant or an expression in
parentheses, names a value. Where the macros of a table are such and none comes out of itself, to expand
the tokens of an expression is to put expressions for names in it, up to the last
(`Expander.inlined_of_derives`). So a condition has the value of its expression with every name of a
macro replaced by the expression of its replacement list (`SourceUnit.evaluate_inlined`). Only nesting
can stand in the way: of the whole, which then has no value (`SourceUnit.not_evaluate_inlined`), or of
macros, if there are more of them than the limit allows (`Expander.not_isTooDeep_of_length_le`).
-/

namespace CPreprocessor

open Expression (Derives primaryLevel unaryLevel)

/-! ## Tables of named values -/

namespace Table

variable {table : Table}

/-- Whether the name `b` is written in the replacement list of the macro `a`. -/
def Mentions (table : Table) (a b : String) : Prop :=
  ∃ d, table.lookup a = some d ∧ ∃ t ∈ d.replacement, t.isIdentifier = true ∧ t.text = b

/-- Whether the macros of a table name values: each replacement list is an operand, without `defined`,
and no macro comes out of itself. -/
structure NamesValues (table : Table) : Prop where
  object : ∀ d ∈ table.definitions, d.isFunction = false
  placeless : table.Placeless
  unhidden : table.Bodies fun t => t.hide = ∅
  plain : table.Bodies fun t => Defined.isOperator t = false
  operand : ∀ d ∈ table.definitions, ∃ x, Derives primaryLevel (conditionTokens d.replacement) x
  acyclic : ∀ name, ¬ Relation.TransGen table.Mentions name name

/-- No macro comes out of itself if what it mentions has a lower rank. -/
theorem acyclic_of_rank (rank : String → Nat)
    (h : ∀ d ∈ table.definitions, ∀ t ∈ d.replacement, t.isIdentifier = true → rank t.text < rank d.name)
    (name : String) : ¬ Relation.TransGen table.Mentions name name := by
  have hstep : ∀ {a b}, table.Mentions a b → rank b < rank a := by
    rintro a b ⟨d, hd, t, ht, hidentifier, rfl⟩
    have hname : d.name = a := by simpa using List.find?_some hd
    exact hname ▸ h d (List.mem_of_find?_eq_some hd) t ht hidentifier
  have hpath : ∀ {a b}, Relation.TransGen table.Mentions a b → rank b < rank a := by
    intro a b hpath
    induction hpath with
    | single h => exact hstep h
    | tail _ h ih => exact (hstep h).trans ih
  exact fun hcycle => Nat.lt_irrefl _ (hpath hcycle)

theorem NamesValues.not_pasting (h : table.NamesValues) :
    ∀ d ∈ table.definitions, ∀ t ∈ d.replacement, t.isPunctuator "##" = false := by
  intro d hd t ht
  obtain ⟨x, hx⟩ := h.operand d hd
  cases hpasting : t.isPunctuator "##" with
  | false => rfl
  | true =>
    obtain ⟨hkind, -⟩ := Token.isPunctuator_iff.mp hpasting
    have hlayout : t.isLayout = false := by rw [Token.isLayout, hkind]; rfl
    have hwritten := hx.written t (mem_conditionTokens ht hlayout (by simp [hkind]))
    exact absurd hwritten.pasting (by simp [hpasting])

end Table

/-! ## Expressions for names -/

/-- `e.Inlines x y`: the expression `x` becomes `y` when each name of a macro in it is replaced by the
expression of the replacement list, at the place of the name, and so are the names in that. -/
inductive Expander.Inlines (e : Expander) : Expression → Expression → Prop
  | constant (v : Value) : Inlines e (.constant v) (.constant v)
  | kept {t : Token} (hdefinition : e.definition? t = none) : Inlines e (.name t) (.name t)
  | replaced {t : Token} {d : Definition} {x y : Expression} (hdefinition : e.definition? t = some d)
    (hbody : Derives primaryLevel (conditionTokens d.replacement) x)
    (h : Inlines e (x.relocate fun _ => t.location) y) : Inlines e (.name t) y
  | unary (op : UnaryOperator) {x y : Expression} (h : Inlines e x y) :
    Inlines e (.unary op x) (.unary op y)
  | binary (op : BinaryOperator) (place : Location) {l l' r r' : Expression} (hl : Inlines e l l')
    (hr : Inlines e r r') : Inlines e (.binary op place l r) (.binary op place l' r')
  | choice {c c' t t' f f' : Expression} (hc : Inlines e c c') (ht : Inlines e t t')
    (hf : Inlines e f f') : Inlines e (.choice c t f) (.choice c' t' f')
  | group {x y : Expression} (h : Inlines e x y) : Inlines e (.group x) (.group y)

namespace Expander

variable {e : Expander} {active : HideSet} {k : Nat} {t : Token} {ts us tokens out : List Token}
  {x y z : Expression} {d : Definition}

theorem Inlines.unique (hy : e.Inlines x y) (hz : e.Inlines x z) : y = z := by
  induction hy generalizing z with
  | constant v =>
    cases hz
    rfl
  | kept hdefinition =>
    cases hz with
    | kept => rfl
    | replaced hreplaced => exact absurd (hdefinition.symm.trans hreplaced) (by simp)
  | replaced hdefinition hbody h ih =>
    cases hz with
    | kept hkept => exact absurd (hdefinition.symm.trans hkept) (by simp)
    | replaced hdefinition' hbody' h' =>
      cases hdefinition.symm.trans hdefinition'
      have hsame := (hbody.mono (Nat.le_refl _) (Nat.zero_le _)).unique
        (hbody'.mono (Nat.le_refl _) (Nat.zero_le _))
      exact ih (hsame ▸ h')
  | unary op h ih =>
    cases hz with
    | unary _ h' => rw [ih h']
  | binary op place hl hr ihl ihr =>
    cases hz with
    | binary _ _ hl' hr' => rw [ihl hl', ihr hr']
  | choice hc ht hf ihc iht ihf =>
    cases hz with
    | choice hc' ht' hf' => rw [ihc hc', iht ht', ihf hf']
  | group h ih =>
    cases hz with
    | group h' => rw [ih h']

/-! ## The expansion of parts -/

theorem exists_of_expandActive_append (h : e.expandActive active (ts ++ us) = .ok out) :
    ∃ first second, e.expandActive active ts = .ok first ∧ e.expandActive active us = .ok second ∧
      out = first ++ second := by
  induction ts generalizing out with
  | nil => exact ⟨[], out, by rw [expandActive], h, rfl⟩
  | cons t ts ih =>
    rw [List.cons_append, expandActive_cons] at h
    rw [expandActive_cons]
    cases hhead : e.expandActive active [t] with
    | error error =>
      rw [hhead] at h
      cases h
    | ok head =>
      rw [hhead] at h
      obtain ⟨tail, htail, rfl⟩ := map_eq_ok_iff.mp h
      obtain ⟨first, second, hts, hus, rfl⟩ := ih htail
      exact ⟨head ++ first, second, by rw [hts]; rfl, hus, (List.append_assoc ..).symm⟩

theorem expandActive_kept (h : e.definition? t = none) (rest : List Token) :
    e.expandActive active (t :: rest) = (e.expandActive active rest).map (t :: ·) := by
  have hreplacing : e.replacing? active t = none := by rw [replacing?, h, Option.filter_none]
  rw [expandActive_settled hreplacing, settled, h]

theorem exists_of_expandActive_mark {text : String} (ht : t.isPunctuator text = true)
    (h : e.expandActive active (t :: us) = .ok out) :
    ∃ rest, e.expandActive active us = .ok rest ∧ out = t :: rest := by
  obtain ⟨hkind, -⟩ := Token.isPunctuator_iff.mp ht
  rw [expandActive_kept (definition?_of_kind (by simp [hkind]))] at h
  obtain ⟨rest, hrest, rfl⟩ := map_eq_ok_iff.mp h
  exact ⟨rest, hrest, rfl⟩

/-- What does not count in a condition does not count in its expansion. -/
theorem expandActive_conditionTokens (active : HideSet) (tokens : List Token) :
    (e.expandActive active (conditionTokens tokens)).map conditionTokens =
      (e.expandActive active tokens).map conditionTokens := by
  induction tokens with
  | nil => rfl
  | cons t tokens ih =>
    cases hcounted : !t.isLayout && decide (t.kind ≠ .endOfInput) with
    | false =>
      have hdrop : ∀ ts, conditionTokens (t :: ts) = conditionTokens ts := fun ts =>
        List.filter_cons_of_neg fun h => Bool.false_ne_true (hcounted.symm.trans h)
      have hkind : t.kind ≠ .identifier := by
        intro hkind
        rw [Token.isLayout, hkind] at hcounted
        cases hcounted
      rw [hdrop, ih, expandActive_kept (definition?_of_kind hkind)]
      cases e.expandActive active tokens with
      | error error => rfl
      | ok out => exact congrArg Except.ok (hdrop out).symm
    | true =>
      have hkeep : conditionTokens (t :: tokens) = t :: conditionTokens tokens :=
        List.filter_cons_of_pos hcounted
      rw [hkeep, expandActive_cons t (conditionTokens tokens), expandActive_cons t tokens]
      cases e.expandActive active [t] with
      | error error => rfl
      | ok head =>
        dsimp only
        have happend : ∀ out : Except ExpansionError (List Token),
            (out.map (head ++ ·)).map conditionTokens =
              (out.map conditionTokens).map (conditionTokens head ++ ·) := by
          intro out
          cases out with
          | error error => rfl
          | ok out => exact congrArg Except.ok (conditionTokens_append head out)
        rw [happend, ih, happend]

/-- Macros without parameters and without `##` fail in one way only. -/
theorem recursionLimit_of_expandActive (htable : e.table.NamesValues) {error : ExpansionError}
    (h : e.expandActive active tokens = .error error) : error.fault.category = .recursionLimit := by
  fun_induction e.expandActive active tokens with
  | case1 => cases h
  | case2 active t rest hreplacing ih => exact ih (map_eq_error_iff.mp h)
  | case3 active t rest d hreplacing hdeep =>
    cases h
    rfl
  | case4 active t rest d hreplacing hroom fault hpasted =>
    have hd := mem_of_definition? (replacing?_eq_some hreplacing).1
    rw [Definition.pastedBody_of_plain (htable.object d hd) (htable.not_pasting d hd)] at hpasted
    cases hpasted
  | case5 active t rest d hreplacing hroom body hpasted inner hinner ih =>
    cases h
    exact ih hinner
  | case6 active t rest d hreplacing hroom body hpasted replaced hinner ihbody ih =>
    exact ih (map_eq_error_iff.mp h)

/-! ## Tables with few macros -/

theorem mem_names_of_replacing? (h : e.replacing? active t = some d)
    (hactive : ∀ name ∈ active, name ∈ e.table.names) :
    ∀ name ∈ active.insert t.text, name ∈ e.table.names := by
  intro name hname
  rcases HideSet.mem_insert.mp hname with rfl | hname
  · exact Table.mem_names_of_lookup (lookup_of_definition? (replacing?_eq_some h).1)
  · exact hactive name hname

/-- No more names can be active than the table has. -/
theorem Overruns.limit_lt (h : e.Overruns active tokens)
    (hactive : ∀ name ∈ active, name ∈ e.table.names) : e.limit < e.table.names.length := by
  induction h with
  | @replaced active t rest d hreplacing hdeep =>
    have hsubset := mem_names_of_replacing? hreplacing hactive
    have hsize : (active.insert t.text).size ≤ e.table.names.length :=
      (List.subperm_of_subset (active.insert t.text).nodup hsubset).length_le
    omega
  | within hreplacing hroom hbody h ih => exact ih (mem_names_of_replacing? hreplacing hactive)
  | after hfirst h ih => exact ih hactive

/-- Macros without parameters do not nest too deeply if there are no more of them than the limit
allows. -/
theorem not_isTooDeep_of_length_le (hobject : ∀ d ∈ e.table.definitions, d.isFunction = false)
    (hbodies : e.table.Bodies fun t => t.hide = ∅) (htokens : ∀ t ∈ tokens, t.hide = ∅)
    (hlimit : e.table.names.length ≤ e.limit) : ¬ IsTooDeep (e.expand tokens) := by
  rintro ⟨error, herror, hfault⟩
  have hmap := map_expand hobject hbodies htokens
  rw [herror] at hmap
  have hactive := overruns_of_expandActive (map_eq_error_iff.mp hmap.symm) hfault
  have := hactive.limit_lt fun name hname => absurd hname HideSet.not_mem_empty
  omega

/-! ## What the expansion of an expression forms -/

/-- The expansion of tokens that form `x`, within active macros, forms what `x` becomes. -/
def Inlined (e : Expander) (active : HideSet) (k : Nat) (ts : List Token) (x : Expression) : Prop :=
  ∃ y, e.Inlines x y ∧
    ∀ out, e.expandActive active ts = .ok out → Derives k (conditionTokens out) y

namespace Inlined

theorem tighter (hk : k < primaryLevel) (h : e.Inlined active (k + 1) ts x) :
    e.Inlined active k ts x := by
  obtain ⟨y, hy, hout⟩ := h
  exact ⟨y, hy, fun out hexpand => .tighter hk (hout out hexpand)⟩

theorem unary {op : UnaryOperator} (ht : t.isPunctuator op.text = true)
    (h : e.Inlined active unaryLevel ts x) : e.Inlined active unaryLevel (t :: ts) (.unary op x) := by
  obtain ⟨y, hy, hout⟩ := h
  refine ⟨_, .unary op hy, fun out hexpand => ?_⟩
  obtain ⟨rest, hrest, rfl⟩ := exists_of_expandActive_mark ht hexpand
  rw [conditionTokens_mark ht]
  exact .unary ht (hout rest hrest)

theorem binary {op : BinaryOperator} {l r : Expression} (ht : t.isPunctuator op.text = true)
    (hl : e.Inlined active (op.level + 1) ts l) (hr : e.Inlined active (op.level + 2) us r) :
    e.Inlined active (op.level + 1) (ts ++ t :: us) (.binary op t.location l r) := by
  obtain ⟨l', hl, hlout⟩ := hl
  obtain ⟨r', hr, hrout⟩ := hr
  refine ⟨_, .binary op t.location hl hr, fun out hexpand => ?_⟩
  obtain ⟨first, second, hfirst, hsecond, rfl⟩ := exists_of_expandActive_append hexpand
  obtain ⟨rest, hrest, rfl⟩ := exists_of_expandActive_mark ht hsecond
  rw [conditionTokens_append, conditionTokens_mark ht]
  exact .binary (hlout first hfirst) ht (hrout rest hrest)

theorem choice {mark colon : Token} {fs : List Token} {c t f : Expression}
    (hmark : mark.isPunctuator "?" = true) (hcolon : colon.isPunctuator ":" = true)
    (hc : e.Inlined active 1 us c) (ht : e.Inlined active 0 ts t) (hf : e.Inlined active 0 fs f) :
    e.Inlined active 0 (us ++ mark :: (ts ++ colon :: fs)) (.choice c t f) := by
  obtain ⟨c', hc, hcout⟩ := hc
  obtain ⟨t', ht, htout⟩ := ht
  obtain ⟨f', hf, hfout⟩ := hf
  refine ⟨_, .choice hc ht hf, fun out hexpand => ?_⟩
  obtain ⟨first, marked, hfirst, hmarked, rfl⟩ := exists_of_expandActive_append hexpand
  obtain ⟨branches, hbranches, rfl⟩ := exists_of_expandActive_mark hmark hmarked
  obtain ⟨second, rest, hsecond, hrest, rfl⟩ := exists_of_expandActive_append hbranches
  obtain ⟨third, hthird, rfl⟩ := exists_of_expandActive_mark hcolon hrest
  rw [conditionTokens_append, conditionTokens_mark hmark, conditionTokens_append,
    conditionTokens_mark hcolon]
  exact .choice (hcout first hfirst) hmark (htout second hsecond) hcolon (hfout third hthird)

theorem group {opened closed : Token} (hopened : opened.isPunctuator "(" = true)
    (hclosed : closed.isPunctuator ")" = true) (h : e.Inlined active 0 ts x) :
    e.Inlined active primaryLevel (opened :: (ts ++ [closed])) (.group x) := by
  obtain ⟨y, hy, hout⟩ := h
  refine ⟨_, .group hy, fun out hexpand => ?_⟩
  obtain ⟨rest, hrest, rfl⟩ := exists_of_expandActive_mark hopened hexpand
  obtain ⟨inner, last, hinner, hlast, rfl⟩ := exists_of_expandActive_append hrest
  obtain ⟨none, hnone, rfl⟩ := exists_of_expandActive_mark hclosed hlast
  rw [expandActive] at hnone
  cases hnone
  rw [conditionTokens_mark hopened, conditionTokens_append, conditionTokens_mark hclosed]
  exact .group hopened (hout inner hinner) hclosed

/-- A constant or a name that is no macro stays. -/
theorem kept (hleaf : Expression.Leaf [t] x) (hx : e.Inlines x x) (ht : e.definition? t = none) :
    e.Inlined active primaryLevel [t] x := by
  refine ⟨x, hx, fun out hexpand => ?_⟩
  rw [expandActive_kept ht, expandActive] at hexpand
  cases hexpand
  have hderives : Derives primaryLevel [t] x := .leaf hleaf
  exact hderives.conditionTokens_eq.symm ▸ hderives

end Inlined

theorem replacing?_of_definition? (hplaceless : e.table.Placeless) (ht : e.definition? t = some d)
    (hactive : t.text ∉ active) : e.replacing? active t = some d := by
  rw [replacing?, ht, Option.filter_some, hplaceless.not_dynamic (lookup_of_definition? ht)]
  simp [hactive]

/-- The name of a macro becomes what its replacement list becomes within it. -/
theorem Inlined.replaced (htable : e.table.NamesValues) (ht : e.definition? t = some d)
    (hactive : t.text ∉ active) (hbody : Derives primaryLevel (conditionTokens d.replacement) x)
    (h : e.Inlined (active.insert t.text) primaryLevel
      ((conditionTokens d.replacement).map (.relocate fun _ => t.location))
      (x.relocate fun _ => t.location)) :
    e.Inlined active primaryLevel [t] (.name t) := by
  obtain ⟨y, hy, hout⟩ := h
  refine ⟨y, .replaced ht hbody hy, fun out hexpand => ?_⟩
  have hd := mem_of_definition? ht
  rw [expandActive_replacing (replacing?_of_definition? htable.placeless ht hactive),
    Definition.pastedBody_of_plain (htable.object d hd) (htable.not_pasting d hd)] at hexpand
  split at hexpand
  · cases hexpand
  dsimp only at hexpand
  have hcounted := expandActive_conditionTokens (e := e) (active.insert t.text)
    (d.replacement.map (.relocate fun _ => t.location))
  rw [conditionTokens_relocate] at hcounted
  cases hinner : e.expandActive (active.insert t.text) (d.replacement.map (·.moveTo t.location)) with
  | error error =>
    rw [hinner] at hexpand
    cases hexpand
  | ok inner =>
    rw [hinner, expandActive] at hexpand
    cases hexpand
    obtain ⟨inner', hinner', heq⟩ := map_eq_ok_iff.mp
      (hcounted.trans (congrArg (Except.map conditionTokens) hinner))
    simp only [List.append_nil, ← heq]
    exact hout inner' hinner'

/-- What the tokens of a replacement list are within the macros that it comes out of. -/
structure Admits (e : Expander) (active : HideSet) (t : Token) : Prop where
  plain : Defined.isOperator t = false
  mentioned : ∀ name ∈ active, t.isIdentifier = true → Relation.TransGen e.table.Mentions name t.text

theorem Admits.body (htable : e.table.NamesValues) (h : e.Admits active t)
    (ht : e.definition? t = some d) {u : Token} (hu : u ∈ d.replacement) :
    e.Admits (active.insert t.text) u where
  plain := htable.plain d (mem_of_definition? ht) u hu
  mentioned := by
    intro name hname hidentifier
    have hstep : e.table.Mentions t.text u.text :=
      ⟨d, lookup_of_definition? ht, u, hu, hidentifier, rfl⟩
    rcases HideSet.mem_insert.mp hname with rfl | hname
    · exact .single hstep
    · exact (h.mentioned name hname (isIdentifier_of_definition? ht)).tail hstep

/-- Within active macros, the expansion of tokens that form an expression forms what the expression
becomes. -/
theorem inlined_of_derives (htable : e.table.NamesValues) (hx : Derives k ts x)
    (hts : ∀ t ∈ ts, e.Admits active t) : e.Inlined active k ts x := by
  -- the names that are not active decrease into a replacement list, the expression into its parts
  induction hleft : Descent.left e.table.names active.names using Nat.strongRecOn
    generalizing active k ts x with
  | ind left ihleft =>
    induction hx with
    | tighter hk h ih => exact (ih hts).tighter hk
    | choice hc hmark ht hcolon hf ihc iht ihf =>
      obtain ⟨hcs, hts⟩ := List.forall_mem_append.mp hts
      obtain ⟨hts, hfs⟩ := List.forall_mem_append.mp (List.forall_mem_cons.mp hts).2
      exact .choice hmark hcolon (ihc hcs) (iht hts) (ihf (List.forall_mem_cons.mp hfs).2)
    | binary hl ht hr ihl ihr =>
      obtain ⟨hls, hrs⟩ := List.forall_mem_append.mp hts
      exact .binary ht (ihl hls) (ihr (List.forall_mem_cons.mp hrs).2)
    | unary ht h ih => exact .unary ht (ih (List.forall_mem_cons.mp hts).2)
    | group hopened h hclosed ih =>
      obtain ⟨hts, -⟩ := List.forall_mem_append.mp (List.forall_mem_cons.mp hts).2
      exact .group hopened hclosed (ih hts)
    | leaf h =>
      cases h with
      | number kind h =>
        exact .kept (.number kind h) (.constant _) (definition?_of_kind (by simp [kind]))
      | character kind h =>
        exact .kept (.character kind h) (.constant _) (definition?_of_kind (by simp [kind]))
      | @name t kind ne =>
        have ht := List.forall_mem_singleton.mp hts
        cases hdefinition : e.definition? t with
        | none => exact .kept (.name kind ne) (.kept hdefinition) hdefinition
        | some d =>
          have hidentifier := isIdentifier_of_definition? hdefinition
          have hactive : t.text ∉ active := fun hactive =>
            htable.acyclic t.text (ht.mentioned t.text hactive hidentifier)
          have hreplacing := replacing?_of_definition? htable.placeless hdefinition hactive
          obtain ⟨x, hbody⟩ := htable.operand d (mem_of_definition? hdefinition)
          refine .replaced htable hdefinition hactive hbody ?_
          refine ihleft _ (hleft ▸ left_insert_lt hreplacing) (hbody.relocate _) ?_ rfl
          refine List.forall_mem_map.mpr fun u hu => ?_
          have hadmits := ht.body htable hdefinition (List.mem_filter.mp hu).1
          exact ⟨hadmits.plain, hadmits.mentioned⟩
      | defined hkeyword htext kind =>
        have hplain := (hts _ List.mem_cons_self).plain
        simp [Defined.isOperator, Token.isIdentifier, hkeyword, htext] at hplain
      | definedIn hkeyword htext hopened kind hclosed =>
        have hplain := (hts _ List.mem_cons_self).plain
        simp [Defined.isOperator, Token.isIdentifier, hkeyword, htext] at hplain

/-- The expansion of a condition is its expression with expressions for names, but for what the tokens
hide. -/
theorem exists_expand_derives (htable : e.table.NamesValues) (hunhidden : ∀ t ∈ tokens, t.hide = ∅)
    (hplain : ∀ t ∈ tokens, Defined.isOperator t = false) (hx : Derives 0 (conditionTokens tokens) x)
    (hdepth : ¬ IsTooDeep (e.expand tokens)) :
    ∃ y z expansion, e.Inlines x y ∧ e.expand tokens = .ok expansion ∧
      Derives 0 (conditionTokens expansion.tokens) z ∧ z.bare = y.bare := by
  have hmap := map_expand htable.object htable.unhidden hunhidden
  have hsignificant : conditionTokens (tokens.filter fun t => t.kind ≠ .endOfInput) =
      conditionTokens tokens := by
    rw [conditionTokens, conditionTokens, List.filter_filter]
    exact List.filter_congr fun t _ => by simp
  have hadmits : ∀ t ∈ conditionTokens tokens, e.Admits ∅ t := fun t ht =>
    ⟨hplain t (List.mem_filter.mp ht).1, fun name hname => absurd hname HideSet.not_mem_empty⟩
  obtain ⟨y, hy, hout⟩ := inlined_of_derives htable hx hadmits
  have hcounted := expandActive_conditionTokens (e := e) ∅ (tokens.filter fun t => t.kind ≠ .endOfInput)
  rw [hsignificant] at hcounted
  cases hexpand : e.expandActive ∅ (tokens.filter fun t => t.kind ≠ .endOfInput) with
  | error error =>
    rw [hexpand] at hmap
    exact absurd ⟨error, map_eq_error_iff.mp hmap, recursionLimit_of_expandActive htable hexpand⟩ hdepth
  | ok out =>
    rw [hexpand] at hmap hcounted
    obtain ⟨expansion, hexpansion, hbare⟩ := map_eq_ok_iff.mp hmap
    obtain ⟨out', hout', heq⟩ := map_eq_ok_iff.mp hcounted
    have hderives : Derives 0 (conditionTokens out) y := heq ▸ hout out' hout'
    have hkept : conditionTokens (out.filter fun t => t.kind ≠ .placemarker) = conditionTokens out := by
      rw [conditionTokens, List.filter_comm]
      exact List.filter_eq_self.mpr fun t ht => decide_eq_true (hderives.written t ht).placemarker
    obtain ⟨z, hz, hsame⟩ := hderives.recast (hkept ▸ conditionTokens_of_bare hbare)
    exact ⟨y, z, expansion, hy, hexpansion, hz, hsame⟩

end Expander

/-! ## Conditions -/

namespace SourceUnit

variable {u : SourceUnit} {table : Table} {tokens : List Token} {x : Expression}

/-- A condition over macros that name values has the value, or the fault, of its expression with each
name of a macro replaced by the expression of its replacement list, at the place of the name, unless the
expansion or the whole is nested too deep. -/
theorem evaluate_inlined (u : SourceUnit) (location : Option Location) (htable : table.NamesValues)
    (hunhidden : ∀ t ∈ tokens, t.hide = ∅) (hplain : ∀ t ∈ tokens, Defined.isOperator t = false)
    (hx : Derives 0 (conditionTokens tokens) x)
    (hdepth : ¬ Expander.IsTooDeep ((u.expander table).expand tokens)) :
    (∃! y, (u.expander table).Inlines x y) ∧
    ∀ y, (u.expander table).Inlines x y → y.parentheses ≤ ConditionFault.parenthesisLimit →
      y.nesting ≤ u.setup.nestingLimit →
        (u.evaluate table tokens location).1 =
          (y.eval table.isDefined).mapError (ConditionFault.report · (location.bind u.quote?)) := by
  obtain ⟨y, z, expansion, hy, hexpand, hz, hbare⟩ :=
    Expander.exists_expand_derives htable hunhidden hplain hx hdepth
  refine ⟨⟨y, hy, fun y' hy' => hy'.unique hy⟩, fun y' hy' hparentheses hnesting => ?_⟩
  obtain rfl := hy'.unique hy
  rw [← Expression.parentheses_bare, ← hbare, Expression.parentheses_bare] at hparentheses
  rw [← Expression.nesting_bare, ← hbare, Expression.nesting_bare] at hnesting
  rw [evaluate_of_resolve (Defined.resolve_of_plain hplain), hexpand, evaluateExpanded,
    ← Expression.eval_bare, ← hbare, Expression.eval_bare, evaluate_of_derives hz hparentheses hnesting]

/-- A condition whose expression is nested too deep once its names are replaced has no value. -/
theorem not_evaluate_inlined (location : Option Location) (htable : table.NamesValues)
    (hunhidden : ∀ t ∈ tokens, t.hide = ∅) (hplain : ∀ t ∈ tokens, Defined.isOperator t = false)
    (hx : Derives 0 (conditionTokens tokens) x)
    (hdepth : ¬ Expander.IsTooDeep ((u.expander table).expand tokens)) {y : Expression}
    (hy : (u.expander table).Inlines x y) (hnesting : u.setup.nestingLimit < y.nesting) (v : Value) :
    (u.evaluate table tokens location).1 ≠ .ok v := by
  obtain ⟨y', z, expansion, hy', hexpand, hz, hbare⟩ :=
    Expander.exists_expand_derives htable hunhidden hplain hx hdepth
  obtain rfl := hy'.unique hy
  rw [← Expression.nesting_bare, ← hbare, Expression.nesting_bare] at hnesting
  rw [evaluate_of_resolve (Defined.resolve_of_plain hplain), hexpand, evaluateExpanded]
  intro hv
  cases hresult : (CPreprocessor.evaluate
    { isDefined := table.isDefined, location, nestingLimit := u.setup.nestingLimit }
    expansion.tokens).result with
  | error fault =>
    simp only [hresult] at hv
    cases hv
  | ok w => exact not_evaluate_of_derives hz hnesting w hresult

end SourceUnit

/-! ## A product of a sum -/

/-- The macro that `#define TWO 2` defines, without its place. -/
def twoMacro : Definition where
  name := "TWO"
  replacement := [typedAt .number "2" 5]

/-- The macro that `#define SUM (TWO + N)` defines, without its place. -/
def sumMacro : Definition where
  name := "SUM"
  replacement :=
    [typedAt .punctuator "(" 5, typedAt .identifier "TWO" 6, typedAt .whitespace " " 9,
      typedAt .punctuator "+" 10, typedAt .whitespace " " 11, typedAt .identifier "N" 12,
      typedAt .punctuator ")" 13]

def sumTable : Table := Table.define (Table.define ∅ twoMacro) sumMacro

/-- A sum in parentheses. -/
def sumOf (place : Location) (left right : Expression) : Expression :=
  .group (.binary .add place left right)

/-- A product with three. -/
def productOf (left : Expression) : Expression :=
  .binary .mul (markAt "*" 4).location left (.constant ⟨3, false⟩)

/-- The tokens of `SUM*3`. -/
def productTokens : List Token := [wordAt "SUM" 1, markAt "*" 4, { wordAt "3" 5 with kind := .number }]

theorem derives_sumMacro :
    Derives primaryLevel (conditionTokens sumMacro.replacement)
      (sumOf (typedAt .punctuator "+" 10).location (.name (typedAt .identifier "TWO" 6))
        (.name (typedAt .identifier "N" 12))) := by
  have hsum : Derives (BinaryOperator.add.level + 1)
      ([typedAt .identifier "TWO" 6] ++ typedAt .punctuator "+" 10 :: [typedAt .identifier "N" 12])
      (.binary .add (typedAt .punctuator "+" 10).location (.name (typedAt .identifier "TWO" 6))
        (.name (typedAt .identifier "N" 12))) :=
    .binary (Expression.derives_name rfl (by decide) (by decide)) rfl
      (Expression.derives_name rfl (by decide) (by decide))
  have hopened : (typedAt .punctuator "(" 5).isPunctuator "(" = true := rfl
  have hclosed : (typedAt .punctuator ")" 13).isPunctuator ")" = true := rfl
  exact .group hopened (hsum.mono (by decide) (Nat.zero_le _)) hclosed

theorem namesValues_sumTable : sumTable.NamesValues where
  object := by decide
  placeless := by unfold Table.Placeless; decide
  unhidden := by unfold Table.Bodies; decide
  plain := by unfold Table.Bodies; decide
  operand :=
    List.forall_mem_cons.mpr
      ⟨⟨.constant ⟨2, false⟩, Expression.derives_number rfl (by decide) (Nat.le_refl _)⟩,
        List.forall_mem_singleton.mpr ⟨_, derives_sumMacro⟩⟩
  acyclic := Table.acyclic_of_rank (fun name => if name = "SUM" then 1 else 0) (by decide)

theorem inlines_sumTable {e : Expander} (htable : e.table = sumTable) (hfrozen : e.frozen = []) :
    e.Inlines (productOf (.name (wordAt "SUM" 1)))
      (productOf (sumOf (wordAt "SUM" 1).location (.constant ⟨2, false⟩) (.name (wordAt "N" 1)))) := by
  have hnumber : Derives primaryLevel (conditionTokens twoMacro.replacement) (.constant ⟨2, false⟩) :=
    Expression.derives_number rfl (by decide) (Nat.le_refl _)
  have hdefinition : ∀ name, e.definition? (wordAt name 1) = sumTable.lookup name := by
    intro name
    rw [Expander.definition?, htable, hfrozen]
    rfl
  refine .binary _ _ ?_ (.constant _)
  refine .replaced (d := { sumMacro with version := 2 }) ((hdefinition _).trans (by decide))
    derives_sumMacro (.group (.binary _ _ ?_ ?_))
  · exact .replaced (d := { twoMacro with version := 1 }) ((hdefinition _).trans (by decide)) hnumber
      (.constant _)
  · exact .kept ((hdefinition _).trans (by decide))

/-- The sum is one factor of the product: two and an undefined name make two, and three times two is
six. -/
theorem SourceUnit.evaluate_inlined_product :
    let u : SourceUnit := { source := { text := "" } }
    let x := productOf (.name (wordAt "SUM" 1))
    let y := productOf (sumOf (wordAt "SUM" 1).location (.constant ⟨2, false⟩) (.name (wordAt "N" 1)))
    sumTable.NamesValues ∧ (∀ t ∈ productTokens, t.hide = ∅) ∧
    (∀ t ∈ productTokens, Defined.isOperator t = false) ∧
    Derives 0 (conditionTokens productTokens) x ∧
    ¬ Expander.IsTooDeep ((u.expander sumTable).expand productTokens) ∧
    (u.expander sumTable).Inlines x y ∧ y.parentheses ≤ ConditionFault.parenthesisLimit ∧
    y.nesting ≤ u.setup.nestingLimit ∧
    (u.evaluate sumTable productTokens none).1 = .ok ⟨6, false⟩ := by
  intro u x y
  have hunhidden : ∀ t ∈ productTokens, t.hide = ∅ := by decide
  have hplain : ∀ t ∈ productTokens, Defined.isOperator t = false := by decide
  have hproduct : Derives (BinaryOperator.mul.level + 1)
      ([wordAt "SUM" 1] ++ markAt "*" 4 :: [{ wordAt "3" 5 with kind := .number }]) x :=
    .binary (Expression.derives_name rfl (by decide) (by decide)) rfl
      (Expression.derives_number rfl (by decide) (by decide))
  have hx : Derives 0 (conditionTokens productTokens) x := hproduct.mono (by decide) (Nat.zero_le _)
  have hdepth : ¬ Expander.IsTooDeep ((u.expander sumTable).expand productTokens) :=
    Expander.not_isTooDeep_of_length_le namesValues_sumTable.object namesValues_sumTable.unhidden
      hunhidden (by decide)
  have hy : (u.expander sumTable).Inlines x y := inlines_sumTable rfl rfl
  have hparentheses : y.parentheses ≤ ConditionFault.parenthesisLimit := by decide
  have hnesting : y.nesting ≤ u.setup.nestingLimit := by decide
  obtain ⟨-, hvalue⟩ :=
    SourceUnit.evaluate_inlined u none namesValues_sumTable hunhidden hplain hx hdepth
  exact ⟨namesValues_sumTable, hunhidden, hplain, hx, hdepth, hy, hparentheses, hnesting,
    (hvalue y hy hparentheses hnesting).trans (by decide)⟩

/-! ## Many negations -/

/-- An expression after `!` marks. -/
def Expression.negations (marks : List Token) (x : Expression) : Expression :=
  marks.foldr (fun _ x => .unary .not x) x

section
variable {marks ts : List Token} {x y : Expression}

theorem Expression.derives_negations (hmarks : ∀ t ∈ marks, t.isPunctuator "!" = true)
    (hx : Derives unaryLevel ts x) : Derives unaryLevel (marks ++ ts) (negations marks x) := by
  induction marks with
  | nil => exact hx
  | cons t marks ih =>
    obtain ⟨ht, hmarks⟩ := List.forall_mem_cons.mp hmarks
    exact Derives.unary (show t.isPunctuator UnaryOperator.not.text = true from ht) (ih hmarks)

theorem Expander.inlines_negations {e : Expander} (h : e.Inlines x y) (marks : List Token) :
    e.Inlines (.negations marks x) (.negations marks y) := by
  induction marks with
  | nil => exact h
  | cons t marks ih => exact .unary .not ih

theorem Expression.parentheses_negations (marks : List Token) (x : Expression) :
    (negations marks x).parentheses = x.parentheses := by
  induction marks with
  | nil => rfl
  | cons t marks ih => exact ih

theorem Expression.nesting_negations (marks : List Token) (x : Expression) :
    (negations marks x).nesting = x.nesting + marks.length := by
  induction marks with
  | nil => rfl
  | cons t marks ih => exact congrArg (· + 1) ih

theorem Expression.eval_negations {isDefined : String → Bool} {b : Bool}
    (hx : x.eval isDefined = .ok (.ofBool b)) (marks : List Token) :
    (negations marks x).eval isDefined = .ok (.ofBool (not^[marks.length] b)) := by
  have hnot : ∀ b, UnaryOperator.not.apply (.ofBool b) = .ofBool !b := by decide
  induction marks with
  | nil => exact hx
  | cons t marks ih =>
    have heval : (negations (t :: marks) x).eval isDefined =
        ((negations marks x).eval isDefined).map UnaryOperator.not.apply := rfl
    rw [heval, ih, List.length_cons, Function.iterate_succ_apply', ← hnot]
    rfl

end

/-- The macro that `#define N 1` defines, without its place. -/
def unitTable : Table := Table.define ∅ { name := "N", replacement := [typedAt .number "1" 3] }

theorem namesValues_unitTable : unitTable.NamesValues where
  object := by decide
  placeless := by unfold Table.Placeless; decide
  unhidden := by unfold Table.Bodies; decide
  plain := by unfold Table.Bodies; decide
  operand :=
    List.forall_mem_singleton.mpr
      ⟨.constant ⟨1, false⟩, Expression.derives_number rfl (by decide) (Nat.le_refl _)⟩
  acyclic := Table.acyclic_of_rank (fun _ => 0) (by decide)

/-- As many `!` marks at the start of the first line. -/
def negationMarks (count : Nat) : List Token :=
  (List.range count).map fun column : Nat => markAt "!" (column + 1)

/-- After 1500 negations one is one, but a condition of so many is nested too deep for an answer. -/
theorem SourceUnit.evaluate_ne_inlined_negations :
    let u : SourceUnit := { source := { text := "" } }
    let tokens := negationMarks 1500 ++ [wordAt "N" 1501]
    let x := Expression.negations (negationMarks 1500) (.name (wordAt "N" 1501))
    let y := Expression.negations (negationMarks 1500) (.constant ⟨1, false⟩)
    unitTable.NamesValues ∧ (∀ t ∈ tokens, t.hide = ∅) ∧ (∀ t ∈ tokens, Defined.isOperator t = false) ∧
    Derives 0 (conditionTokens tokens) x ∧
    ¬ Expander.IsTooDeep ((u.expander unitTable).expand tokens) ∧
    (u.expander unitTable).Inlines x y ∧ y.parentheses ≤ ConditionFault.parenthesisLimit ∧
    y.eval unitTable.isDefined = .ok ⟨1, false⟩ ∧
    ∀ v, (u.evaluate unitTable tokens none).1 ≠ .ok v := by
  intro u tokens x y
  have hmarks : ∀ t ∈ negationMarks 1500, ∃ column, t = markAt "!" column := fun t ht => by
    obtain ⟨i, -, rfl⟩ := List.mem_map.mp ht
    exact ⟨_, rfl⟩
  have hmem : ∀ {P : Token → Prop}, (∀ column, P (markAt "!" column)) → P (wordAt "N" 1501) →
      ∀ t ∈ tokens, P t := by
    intro P hmark hname t ht
    rcases List.mem_append.mp ht with ht | ht
    · obtain ⟨column, rfl⟩ := hmarks t ht
      exact hmark column
    · exact List.mem_singleton.mp ht ▸ hname
  have hlength : (negationMarks 1500).length = 1500 := by
    rw [negationMarks, List.length_map, List.length_range]
  have hunhidden : ∀ t ∈ tokens, t.hide = ∅ := hmem (fun _ => rfl) rfl
  have hplain : ∀ t ∈ tokens, Defined.isOperator t = false := hmem (fun _ => rfl) (by decide)
  have hderives : Derives unaryLevel tokens x := Expression.derives_negations
    (fun t ht => by obtain ⟨column, rfl⟩ := hmarks t ht; rfl)
    (Expression.derives_name rfl (by decide) (by decide))
  have hx : Derives 0 (conditionTokens tokens) x :=
    hderives.conditionTokens_eq.symm ▸ hderives.mono (by decide) (Nat.zero_le _)
  have hdepth : ¬ Expander.IsTooDeep ((u.expander unitTable).expand tokens) :=
    Expander.not_isTooDeep_of_length_le namesValues_unitTable.object namesValues_unitTable.unhidden
      hunhidden (by decide)
  have hnumber : Derives primaryLevel (conditionTokens [typedAt .number "1" 3]) (.constant ⟨1, false⟩) :=
    Expression.derives_number rfl (by decide) (Nat.le_refl _)
  have hname : (u.expander unitTable).Inlines (.name (wordAt "N" 1501)) (.constant ⟨1, false⟩) :=
    .replaced (d := { name := "N", replacement := [typedAt .number "1" 3], version := 1 }) (by decide)
      hnumber (.constant _)
  have hy : (u.expander unitTable).Inlines x y := Expander.inlines_negations hname _
  have hparentheses : y.parentheses ≤ ConditionFault.parenthesisLimit := by
    rw [Expression.parentheses_negations]
    exact Nat.zero_le _
  have hnesting : u.setup.nestingLimit < y.nesting := by
    rw [Expression.nesting_negations, hlength]
    decide
  have heval : y.eval unitTable.isDefined = .ok ⟨1, false⟩ := by
    have heven : Even 1500 := by decide
    rw [Expression.eval_negations (b := true) rfl, hlength, Bool.involutive_not.iterate_even heven]
    rfl
  exact ⟨namesValues_unitTable, hunhidden, hplain, hx, hdepth, hy, hparentheses, heval, fun v =>
    not_evaluate_inlined none namesValues_unitTable hunhidden hplain hx hdepth hy hnesting v⟩

end CPreprocessor
