import CPreprocessor.Proofs.Expansion.Lasting
import CPreprocessor.Proofs.Expansion.Machine
import CPreprocessor.Proofs.Macro.Replacement

/-!
# Macros without parameters, by the set of active names

Where no macro takes arguments, the hide set of a token is the set of the macros that are just being
expanded. So expansion is a recursion over replacement lists, `Expander.expandActive`, that carries
this set along and looks at no hide set: a name that is active stays, any other macro name is replaced
by the expansion of its replacement list with the name active. The run over the pending tokens, where
replacement lists are read again together with what follows them, comes to the same
(`Expander.run_within`, `Expander.expand_eq_expandActive`). It nests too deeply exactly if the
recursion does, on its way from left to right (`Expander.Overruns`).
-/

namespace CPreprocessor

/-- The replacement list of a macro without parameters at the place of an invocation, with its `##`
carried out. -/
def Definition.pastedBody (d : Definition) (site : Location) : Except ExpansionFault (List Token) :=
  Filling.fill { written := fun _ => [], expanded := fun _ => [], site } d.template

namespace Token

/-- The token without the names it hides. -/
def bare (t : Token) : Token := { t with hide := ∅ }

/-- The token as it comes out of the expansion of the names in `active`. -/
def within (active : HideSet) (t : Token) : Token := { t with hide := active }

end Token

namespace Expander

/-- The macro that a token is replaced by while the names in `active` are expanded. The names that
have a value of their own at each place are not replaced. -/
def replacing? (e : Expander) (active : HideSet) (t : Token) : Option Definition :=
  (e.definition? t).filter fun d =>
    t.text ∉ active && !(d.builtin && Builtin.dynamicNames.contains t.text)

/-- What a token that is not replaced stands for: the name of an active macro is painted. -/
def settled (e : Expander) (active : HideSet) (t : Token) : Token :=
  match e.definition? t with
  | none => t
  | some _ => if t.text ∈ active then t.paint else dynamicValue t

theorem replacing?_eq_some {e : Expander} {active : HideSet} {t : Token} {d : Definition}
    (h : e.replacing? active t = some d) :
    e.definition? t = some d ∧ t.text ∉ active ∧
      (d.builtin && Builtin.dynamicNames.contains t.text) = false := by
  obtain ⟨hdefinition, hkept⟩ := Option.filter_eq_some_iff.mp h
  obtain ⟨hactive, hdynamic⟩ := Bool.and_eq_true_iff.mp hkept
  exact ⟨hdefinition, of_decide_eq_true hactive, Bool.not_eq_eq_eq_not.mp hdynamic⟩

theorem left_insert_lt {e : Expander} {active : HideSet} {t : Token} {d : Definition}
    (h : e.replacing? active t = some d) :
    Descent.left e.table.names (active.insert t.text).names <
      Descent.left e.table.names active.names := by
  obtain ⟨hdefinition, hactive, -⟩ := replacing?_eq_some h
  have hmem : t.text ∈ e.table.names := Table.mem_names_of_lookup (lookup_of_definition? hdefinition)
  have hnames : (active.insert t.text).names = t.text :: active.names := by
    rw [HideSet.insert, dif_neg (show t.text ∉ active.names from hactive)]
  rw [hnames]
  exact Descent.left_cons_lt hmem hactive

/-- The expansion of tokens while the names in `active` are expanded: the replacement list of a macro
is expanded with its name active, before the tokens that follow the invocation. -/
def expandActive (e : Expander) (active : HideSet) (tokens : List Token) :
    Except ExpansionError (List Token) :=
  match tokens with
  | [] => .ok []
  | t :: rest =>
    match _hreplacing : e.replacing? active t with
    | none => (e.expandActive active rest).map (e.settled active t :: ·)
    | some d =>
      if e.limit < (active.insert t.text).size then
        .error ⟨t.text, .recursionLimit e.limit, t.location⟩
      else
        match d.pastedBody t.location with
        | .error fault => .error ⟨d.name, fault, t.location⟩
        | .ok body =>
          match e.expandActive (active.insert t.text) body with
          | .error error => .error error
          | .ok out => (e.expandActive active rest).map (out ++ ·)
termination_by (Descent.left e.table.names active.names, tokens.length)
decreasing_by
  · exact .right _ (Nat.lt_succ_self _)
  · exact .left _ _ (left_insert_lt _hreplacing)
  · exact .right _ (Nat.lt_succ_self _)

/-- Whether the expansion of tokens meets, before any fault, a macro whose replacement would make
more names active than the limit allows. -/
inductive Overruns (e : Expander) : HideSet → List Token → Prop
  | replaced {active : HideSet} {t : Token} {rest : List Token} {d : Definition}
    (hreplacing : e.replacing? active t = some d)
    (hdeep : e.limit < (active.insert t.text).size) : Overruns e active (t :: rest)
  | within {active : HideSet} {t : Token} {rest : List Token} {d : Definition} {body : List Token}
    (hreplacing : e.replacing? active t = some d)
    (hroom : ¬ e.limit < (active.insert t.text).size) (hbody : d.pastedBody t.location = .ok body)
    (h : Overruns e (active.insert t.text) body) : Overruns e active (t :: rest)
  | after {active : HideSet} {t : Token} {rest out : List Token}
    (hfirst : e.expandActive active [t] = .ok out) (h : Overruns e active rest) :
    Overruns e active (t :: rest)

end Expander

/-! ## Replacement lists of macros without parameters -/

namespace Definition

variable {d : Definition} {t : Token} {tokens : List Token} {site : Location}

theorem isVariadic_of_object (h : d.isFunction = false) : d.isVariadic = false := by
  unfold isFunction at h
  unfold isVariadic
  split at h
  · rfl
  · cases h

theorem pieces_of_object (h : d.isFunction = false) (joined : Bool) (tokens : List Token) :
    ∀ piece ∈ d.pieces joined tokens, (∃ t ∈ tokens, piece = .copy t) ∨ piece = .join := by
  intro piece hpiece
  cases piece with
  | copy t => exact .inl ⟨t, mem_of_copy hpiece, rfl⟩
  | join => exact .inr rfl
  | _ =>
    exfalso
    fun_induction d.pieces joined tokens with
    | case1 => cases hpiece
    | case2 joined u rest hmark => exact absurd hmark (by simp [h])
    | case3 joined u rest hmark => exact absurd hmark (by simp [h])
    | case4 joined u rest hmark => exact absurd hmark (by simp [h])
    | case5 => cases List.mem_singleton.mp hpiece
    | case6 joined u rest hmark hpaste p after heq hrest =>
      exact absurd hrest (by simp [isVariadic_of_object h])
    | case7 joined u rest hmark hpaste p after heq hrest ih =>
      exact ih ((List.mem_cons.mp hpiece).resolve_left (by rintro ⟨⟩))
    | case8 joined u rest hmark hpaste index hindex => exact absurd hindex (by simp [h])
    | case9 joined u rest hmark hpaste index hindex => exact absurd hindex (by simp [h])
    | case10 joined u rest hmark hpaste hindex ih =>
      exact ih ((List.mem_cons.mp hpiece).resolve_left (by rintro ⟨⟩))

theorem expandedIndices_of_object (h : d.isFunction = false) :
    Piece.expandedIndices d.template = [] := by
  unfold Piece.expandedIndices
  rw [List.filterMap_eq_nil_iff.mpr]
  · rfl
  · intro piece hpiece
    rcases pieces_of_object h false d.replacement piece hpiece with ⟨t, -, rfl⟩ | rfl
    · rfl
    · rfl

/-- Where there are no parameters it does not matter what is put in for them. -/
theorem fill_of_object (h : d.isFunction = false) (f : Filling) :
    f.fill d.template = d.pastedBody f.site := by
  have hlay : ∀ (template : List Piece) (draft : Draft),
      (∀ piece ∈ template, (∃ t ∈ d.replacement, piece = .copy t) ∨ piece = .join) →
        template.foldl f.lay draft =
          template.foldl
            (Filling.lay { written := fun _ => [], expanded := fun _ => [], site := f.site }) draft := by
    intro template
    induction template with
    | nil => exact fun draft _ => rfl
    | cons piece template ih =>
      intro draft hpieces
      obtain ⟨hpiece, hpieces⟩ := List.forall_mem_cons.mp hpieces
      rw [List.foldl_cons, List.foldl_cons, ih _ hpieces]
      rcases hpiece with ⟨t, -, rfl⟩ | rfl
      · rfl
      · rfl
  rw [pastedBody, Filling.fill, Filling.fill, hlay d.template {} (pieces_of_object h false d.replacement)]

theorem hide_of_paste? {left right joined : Token} (hleft : left.hide = ∅) (hright : right.hide = ∅)
    (h : left.paste? right site = some joined) : joined.hide = ∅ := by
  rcases Token.cases_of_paste? h with rfl | rfl | ⟨-, -, kind, text, -, -, rfl⟩
  · exact hright
  · exact hleft
  · rfl

/-- The tokens of a replacement list hide nothing by themselves. -/
theorem hide_of_pastedBody (hbody : ∀ t ∈ d.replacement, t.hide = ∅)
    (hpasted : d.pastedBody site = .ok tokens) : ∀ t ∈ tokens, t.hide = ∅ := by
  have hf : Filling.Has (fun t => t.hide = ∅)
      { written := fun _ => [], expanded := fun _ => [], site } :=
    ⟨fun _ => nofun, fun _ => nofun, fun _ => rfl, rfl⟩
  exact hf.fill (fun t ht => hbody t (mem_of_copy ht)) (fun _ => hide_of_paste?) hpasted

theorem exists_paste_of_fill {f : Filling} {template : List Piece} {fault : ExpansionFault}
    (h : f.fill template = .error fault) : ∃ left right, fault = .paste left right := by
  have hjoin : ∀ (joins : List Nat) (position : Nat) (done tokens : List Token),
      Filling.joinItems joins f.site position done tokens = .error fault →
        ∃ left right, fault = .paste left right := by
    intro joins position done tokens h
    fun_induction Filling.joinItems joins f.site position done tokens with
    | case1 => cases h
    | case2 position t ts ih => exact ih h
    | case3 position t ts left before hjoin joined hjoined ih => exact ih h
    | case4 position t ts left before hjoin hnone =>
      cases h
      exact ⟨_, _, rfl⟩
    | case5 position t ts left before hjoin ih => exact ih h
  exact hjoin _ _ _ _ h

end Definition

namespace Expander

variable {e : Expander} {active : HideSet} {t : Token} {rest tokens out : List Token} {d : Definition}

/-! ## The turn of a token within active macros -/

theorem definition?_within : e.definition? (t.within active) = e.definition? t := rfl

theorem bare_dynamicValue_within (active : HideSet) (t : Token) :
    (dynamicValue (t.within active)).bare = (dynamicValue t).bare := by
  by_cases hline : t.text = "__LINE__"
  · rw [dynamicValue, dynamicValue, if_pos hline, if_pos (show (t.within active).text = _ from hline)]
    rfl
  · rw [dynamicValue, dynamicValue, if_neg hline, if_neg (show (t.within active).text ≠ _ from hline)]
    rfl

theorem turn_within_settled (h : e.replacing? active t = none) (rest : List Token) :
    ∃ u, e.turn (t.within active) rest = .ok (.emit u) ∧ u.bare = (e.settled active t).bare := by
  rw [turn, settled, definition?_within]
  cases hdefinition : e.definition? t with
  | none => exact ⟨_, rfl, rfl⟩
  | some d =>
    rw [replacing?, hdefinition, Option.filter_some] at h
    by_cases hactive : t.text ∈ active
    · have hhidden : (t.within active).text ∈ (t.within active).hide := hactive
      exact ⟨_, if_pos hhidden, by rw [if_pos hactive]; rfl⟩
    · have hhidden : (t.within active).text ∉ (t.within active).hide := hactive
      have hdynamic : (d.builtin && Builtin.dynamicNames.contains t.text) = true := by
        simpa [hactive] using h
      exact ⟨_, (if_neg hhidden).trans (if_pos hdynamic),
        (bare_dynamicValue_within active t).trans (by rw [if_neg hactive])⟩

theorem turn_within_replacing (h : e.replacing? active t = some d) (hobject : d.isFunction = false)
    (rest : List Token) :
    e.turn (t.within active) rest = .ok (.invoke
      { definition := d, site := t.within active, arguments := [],
        hide := active.insert t.text, rest }) := by
  obtain ⟨hdefinition, hactive, hdynamic⟩ := replacing?_eq_some h
  have hhidden : (t.within active).text ∉ (t.within active).hide := hactive
  have hvalue : ¬ (d.builtin && Builtin.dynamicNames.contains (t.within active).text) = true :=
    ne_true_of_eq_false hdynamic
  have hshape : (!d.isFunction) = true := by rw [hobject, Bool.not_false]
  rw [turn, definition?_within, hdefinition]
  exact ((if_neg hhidden).trans (if_neg hvalue)).trans (if_pos hshape)

theorem exceeds_zero (active : HideSet) (name : String) :
    e.exceeds 0 (active.insert name).size = decide (e.limit < (active.insert name).size) := by
  have hsize : 0 < (active.insert name).size :=
    List.length_pos_of_mem (HideSet.mem_insert.mpr (.inl rfl))
  rw [exceeds, Bool.eq_iff_iff, Bool.or_eq_true, decide_eq_true_eq, decide_eq_true_eq]
  omega

/-! ## The run over the pending tokens -/

theorem HideSet.empty_union (s : HideSet) : HideSet.union ∅ s = s := by
  obtain ⟨names, nodup⟩ := s
  simp only [HideSet.union, HideSet.mk.injEq]
  exact List.filter_eq_self.mpr fun name _ => decide_eq_true List.not_mem_nil

theorem Token.hideBy_of_empty (h : t.hide = ∅) (active : HideSet) :
    t.hideBy active = t.within active := by
  rw [Token.hideBy, h, HideSet.empty_union, Token.within]

/-- The replacement that an invocation of a macro without parameters gives. -/
theorem replacement_of_object (hobject : d.isFunction = false)
    (hbody : ∀ t ∈ d.replacement, t.hide = ∅) (site : Token) (hide : HideSet) (rest : List Token) :
    Invocation.replacement { definition := d, site, arguments := [], hide, rest } [] =
      match d.pastedBody site.location with
      | .error fault => .error ⟨d.name, fault, site.location⟩
      | .ok body => .ok (body.map (·.within hide)) := by
  rw [Invocation.replacement, Definition.fill_of_object hobject]
  cases hpasted : d.pastedBody site.location with
  | error fault => rfl
  | ok body =>
    have hhide := Definition.hide_of_pastedBody hbody hpasted
    exact congrArg Except.ok
      (List.map_congr_left fun t ht => Token.hideBy_of_empty (hhide t ht) hide)

/-- What the run makes of a name that is replaced, within active macros. -/
theorem run_within_invoke (hobject : d.isFunction = false) (hbody : ∀ t ∈ d.replacement, t.hide = ∅)
    (hreplacing : e.replacing? active t = some d) (done : Progress) (rest : List Token) :
    e.run 0 done (t.within active :: rest) =
      if e.limit < (active.insert t.text).size then
        .error ⟨t.text, .recursionLimit e.limit, t.location⟩
      else
        match d.pastedBody t.location with
        | .error fault => .error ⟨d.name, fault, t.location⟩
        | .ok body =>
          e.run 0 (done.invoke t.text []) (body.map (·.within (active.insert t.text)) ++ rest) := by
  have hturn := turn_within_replacing hreplacing hobject rest
  rw [run_of_invoke hturn, exceeds_zero]
  simp only [decide_eq_true_eq, Invocation.expandedIndices,
    Definition.expandedIndices_of_object hobject]
  congr 1
  rw [runArguments, mapM_nil_except]
  simp only [List.map_nil, List.zip_nil_right]
  rw [replacement_of_object hobject hbody]
  dsimp only [Token.within]
  cases d.pastedBody t.location with
  | error fault => rfl
  | ok body => rfl

/-- Pending tokens that hide the active names are expanded before the tokens that follow. -/
theorem run_within (hobject : ∀ d ∈ e.table.definitions, d.isFunction = false)
    (hbodies : e.table.Bodies fun t => t.hide = ∅) (active : HideSet) (tokens : List Token) :
    ∀ (done : Progress) (rest : List Token),
      match e.expandActive active tokens with
      | .error error => e.run 0 done (tokens.map (·.within active) ++ rest) = .error error
      | .ok out => ∃ p : Progress,
        p.output.map Token.bare = (out.map Token.bare).reverse ++ done.output.map Token.bare ∧
        e.run 0 done (tokens.map (·.within active) ++ rest) = e.run 0 p rest := by
  have hmacro : ∀ {active : HideSet} {t : Token} {d : Definition}, e.replacing? active t = some d →
      d.isFunction = false ∧ ∀ u ∈ d.replacement, u.hide = ∅ := fun hreplacing =>
    have hd := mem_of_definition? (replacing?_eq_some hreplacing).1
    ⟨hobject _ hd, hbodies _ hd⟩
  fun_induction e.expandActive active tokens with
  | case1 active => exact fun done rest => ⟨done, rfl, rfl⟩
  | case2 active t tokens hreplacing ih =>
    intro done rest
    obtain ⟨u, hturn, hbare⟩ := turn_within_settled hreplacing (tokens.map (·.within active) ++ rest)
    have ih := ih (done.emit u) rest
    rw [List.map_cons, List.cons_append, run_of_emit hturn]
    cases hexpand : e.expandActive active tokens with
    | error error =>
      rw [hexpand] at ih
      exact ih
    | ok out =>
      rw [hexpand] at ih
      obtain ⟨p, hp, hrun⟩ := ih
      refine ⟨p, ?_, hrun⟩
      rw [hp, Progress.emit, List.map_cons, hbare]
      simp
  | case3 active t tokens d hreplacing hdeep =>
    intro done rest
    obtain ⟨hobject, hbody⟩ := hmacro hreplacing
    rw [List.map_cons, List.cons_append, run_within_invoke hobject hbody hreplacing, if_pos hdeep]
  | case4 active t tokens d hreplacing hroom fault hpasted =>
    intro done rest
    obtain ⟨hobject, hbody⟩ := hmacro hreplacing
    rw [List.map_cons, List.cons_append, run_within_invoke hobject hbody hreplacing,
      if_neg hroom, hpasted]
  | case5 active t tokens d hreplacing hroom body hpasted error hinner ih =>
    intro done rest
    obtain ⟨hobject, hbody⟩ := hmacro hreplacing
    rw [List.map_cons, List.cons_append, run_within_invoke hobject hbody hreplacing,
      if_neg hroom, hpasted]
    have ih := ih (done.invoke t.text []) (tokens.map (·.within active) ++ rest)
    rw [hinner] at ih
    exact ih
  | case6 active t tokens d hreplacing hroom body hpasted replaced hinner ihbody ih =>
    intro done rest
    obtain ⟨hobject, hbody⟩ := hmacro hreplacing
    rw [List.map_cons, List.cons_append, run_within_invoke hobject hbody hreplacing,
      if_neg hroom, hpasted]
    have ihbody := ihbody (done.invoke t.text []) (tokens.map (·.within active) ++ rest)
    rw [hinner] at ihbody
    obtain ⟨p, hp, hrun⟩ := ihbody
    have ih := ih p rest
    cases hexpand : e.expandActive active tokens with
    | error error =>
      rw [hexpand] at ih
      exact hrun.trans ih
    | ok out =>
      rw [hexpand] at ih
      obtain ⟨q, hq, hrest⟩ := ih
      refine ⟨q, ?_, hrun.trans hrest⟩
      rw [hq, hp, List.map_append, List.reverse_append, List.append_assoc]
      rfl

/-! ## Runs that nest too deeply -/

theorem expandActive_settled (h : e.replacing? active t = none) (rest : List Token) :
    e.expandActive active (t :: rest) =
      (e.expandActive active rest).map (e.settled active t :: ·) := by
  rw [expandActive]
  split
  · rfl
  · rename_i d hreplacing
    rw [h] at hreplacing
    cases hreplacing

theorem expandActive_replacing (h : e.replacing? active t = some d) (rest : List Token) :
    e.expandActive active (t :: rest) =
      if e.limit < (active.insert t.text).size then
        .error ⟨t.text, .recursionLimit e.limit, t.location⟩
      else
        match d.pastedBody t.location with
        | .error fault => .error ⟨d.name, fault, t.location⟩
        | .ok body =>
          match e.expandActive (active.insert t.text) body with
          | .error error => .error error
          | .ok out => (e.expandActive active rest).map (out ++ ·) := by
  rw [expandActive]
  split
  · rename_i hreplacing
    rw [h] at hreplacing
    cases hreplacing
  · rename_i d' hreplacing
    rw [h] at hreplacing
    cases hreplacing
    rfl

/-- Tokens are expanded one after the other. -/
theorem expandActive_cons (t : Token) (rest : List Token) :
    e.expandActive active (t :: rest) =
      match e.expandActive active [t] with
      | .error error => .error error
      | .ok out => (e.expandActive active rest).map (out ++ ·) := by
  cases h : e.replacing? active t with
  | none =>
    rw [expandActive_settled h, expandActive_settled h, expandActive]
    rfl
  | some d =>
    rw [expandActive_replacing h, expandActive_replacing h, expandActive]
    split
    · rfl
    cases d.pastedBody t.location with
    | error fault => rfl
    | ok body =>
      dsimp only
      cases e.expandActive (active.insert t.text) body with
      | error error => rfl
      | ok out =>
        dsimp only [Except.map]
        rw [List.append_nil]

theorem overruns_of_expandActive {error : ExpansionError}
    (h : e.expandActive active tokens = .error error)
    (hfault : error.fault.category = .recursionLimit) : e.Overruns active tokens := by
  fun_induction e.expandActive active tokens with
  | case1 => cases h
  | case2 active t rest hreplacing ih =>
    have hfirst : e.expandActive active [t] = .ok [e.settled active t] := by
      rw [expandActive_settled hreplacing, expandActive]
      rfl
    exact .after hfirst (ih (map_eq_error_iff.mp h))
  | case3 active t rest d hreplacing hdeep => exact .replaced hreplacing hdeep
  | case4 active t rest d hreplacing hroom fault hpasted =>
    cases h
    obtain ⟨left, right, rfl⟩ := Definition.exists_paste_of_fill hpasted
    cases hfault
  | case5 active t rest d hreplacing hroom body hpasted inner hinner ih =>
    cases h
    exact .within hreplacing hroom hpasted (ih hinner)
  | case6 active t rest d hreplacing hroom body hpasted out hinner ihbody ih =>
    have hfirst : e.expandActive active [t] = .ok (out ++ []) := by
      rw [expandActive_replacing hreplacing, if_neg hroom, hpasted]
      dsimp only
      rw [hinner, expandActive]
      rfl
    exact .after hfirst (ih (map_eq_error_iff.mp h))

theorem Overruns.expandActive (h : e.Overruns active tokens) :
    ∃ error, e.expandActive active tokens = .error error ∧
      error.fault.category = .recursionLimit := by
  induction h with
  | replaced hreplacing hdeep =>
    rw [expandActive_replacing hreplacing, if_pos hdeep]
    exact ⟨_, rfl, rfl⟩
  | within hreplacing hroom hbody _ ih =>
    obtain ⟨error, herror, hfault⟩ := ih
    rw [expandActive_replacing hreplacing, if_neg hroom, hbody]
    dsimp only
    rw [herror]
    exact ⟨error, rfl, hfault⟩
  | after hfirst _ ih =>
    obtain ⟨error, herror, hfault⟩ := ih
    rw [expandActive_cons, hfirst, herror]
    exact ⟨error, rfl, hfault⟩

theorem map_expand (hobject : ∀ d ∈ e.table.definitions, d.isFunction = false)
    (hbodies : e.table.Bodies fun t => t.hide = ∅) (htokens : ∀ t ∈ tokens, t.hide = ∅) :
    (e.expand tokens).map (fun expansion => expansion.tokens.map Token.bare) =
      (e.expandActive ∅ (tokens.filter fun t => t.kind ≠ .endOfInput)).map
        fun out => (out.filter fun t => t.kind ≠ .placemarker).map Token.bare := by
  have hplain : (tokens.filter fun t => t.kind ≠ .endOfInput).map (·.within ∅) =
      tokens.filter fun t => t.kind ≠ .endOfInput := by
    refine (List.map_congr_left fun t ht => ?_).trans (List.map_id _)
    rw [Token.within, ← htokens t (List.mem_filter.mp ht).1]
    rfl
  have hrun := run_within hobject hbodies ∅ (tokens.filter fun t => t.kind ≠ .endOfInput) {} []
  rw [hplain, List.append_nil] at hrun
  rw [expand]
  cases hexpand : e.expandActive ∅ (tokens.filter fun t => t.kind ≠ .endOfInput) with
  | error error =>
    rw [hexpand] at hrun
    rw [hrun]
    rfl
  | ok out =>
    rw [hexpand] at hrun
    obtain ⟨p, hp, hrun⟩ := hrun
    have hkept : ∀ tokens : List Token, (tokens.filter fun t => t.kind ≠ .placemarker).map Token.bare =
        (tokens.map Token.bare).filter fun t => t.kind ≠ .placemarker := by
      intro tokens
      rw [List.filter_map]
      rfl
    have htokens : p.tokens.map Token.bare = out.map Token.bare := by
      rw [Progress.tokens, List.map_reverse, hp, List.map_nil, List.append_nil, List.reverse_reverse]
    rw [hrun, run_nil]
    dsimp only [Except.map]
    rw [hkept, hkept, htokens]

/-- Where no macro takes arguments and no token hides a name at first, expansion gives the tokens, or
the error, of the recursion over replacement lists, and it nests too deeply exactly if a replacement
there would make more names active than the limit allows, before anything else fails. That the replacement
lists hide nothing is so for all tables that can be reached (`Table.Reachable.bodies_bare`). -/
theorem expand_eq_expandActive (e : Expander) (tokens : List Token)
    (hobject : ∀ d ∈ e.table.definitions, d.isFunction = false)
    (hbodies : e.table.Bodies fun t => t.hide = ∅) (htokens : ∀ t ∈ tokens, t.hide = ∅) :
    (e.expand tokens).map (fun expansion => expansion.tokens.map Token.bare) =
      (e.expandActive ∅ (tokens.filter fun t => t.kind ≠ .endOfInput)).map
        (fun out => (out.filter fun t => t.kind ≠ .placemarker).map Token.bare) ∧
    ((∃ error, e.expand tokens = .error error ∧ error.fault.category = .recursionLimit) ↔
      e.Overruns ∅ (tokens.filter fun t => t.kind ≠ .endOfInput)) := by
  have hmap := map_expand hobject hbodies htokens
  have herrors : ∀ error, e.expand tokens = .error error ↔
      e.expandActive ∅ (tokens.filter fun t => t.kind ≠ .endOfInput) = .error error := by
    intro error
    rw [← map_eq_error_iff, hmap, map_eq_error_iff]
  refine ⟨hmap, ?_, ?_⟩
  · rintro ⟨error, herror, hfault⟩
    exact overruns_of_expandActive ((herrors error).mp herror) hfault
  · intro h
    obtain ⟨error, herror, hfault⟩ := h.expandActive
    exact ⟨error, (herrors error).mpr herror, hfault⟩

end Expander

/-! ## Two macros that come out of each other, and a value -/

/-- The macros that `#define p x##y q` and `#define q p;` define, with marks for the blanks. -/
def cycleTable : Table :=
  Table.define
    (Table.define ∅
      { name := "p"
        replacement := [wordAt "x" 11, markAt "##" 12, wordAt "y" 14, markAt "," 15, wordAt "q" 16] })
    { name := "q", replacement := [wordAt "p" 11, markAt ";" 12] }

/-- The name `p` that comes out of `q` within `p` stays. -/
theorem Expander.expand_eq_expandActive_cycle :
    (∀ d ∈ cycleTable.definitions, d.isFunction = false) ∧
    cycleTable.Bodies (fun t => t.hide = ∅) ∧
    (∀ t ∈ [wordAt "p" 1], t.hide = ∅) ∧
    ((Expander.expandActive { table := cycleTable } ∅
        ([wordAt "p" 1].filter fun t => t.kind ≠ .endOfInput)).map fun out =>
          (out.filter fun t => t.kind ≠ .placemarker).map Token.bare) =
      .ok [wordAt "xy" 1, markAt "," 1, (wordAt "p" 1).paint, markAt ";" 1] ∧
    ¬ Expander.Overruns { table := cycleTable } ∅
      ([wordAt "p" 1].filter fun t => t.kind ≠ .endOfInput) := by
  have hobject : ∀ d ∈ cycleTable.definitions, d.isFunction = false := by decide
  have hbodies : cycleTable.Bodies fun t => t.hide = ∅ := by unfold Table.Bodies; decide
  have htokens : ∀ t ∈ [wordAt "p" 1], t.hide = ∅ := by decide
  have hexpand : (Expander.expand { table := cycleTable } [wordAt "p" 1]).map
      (fun expansion => expansion.tokens.map Token.bare) =
        .ok [wordAt "xy" 1, markAt "," 1, (wordAt "p" 1).paint, markAt ";" 1] := by
    have hhalted : (Machine.step { table := cycleTable })^[7] (Machine.start [wordAt "p" 1]) =
        .halted (.ok ⟨[(markAt ";" 1).within ((HideSet.insert ∅ "p").insert "q"),
          (wordAt "p" 1).paint.within ((HideSet.insert ∅ "p").insert "q"),
          (markAt "," 1).within (HideSet.insert ∅ "p"),
          (wordAt "xy" 1).within (HideSet.insert ∅ "p")], ["q", "p"]⟩) := by cbv
    rw [Machine.expand_of_halted 7 hhalted]
    exact congrArg Except.ok (by decide)
  obtain ⟨hmap, hoverruns⟩ := Expander.expand_eq_expandActive { table := cycleTable } [wordAt "p" 1]
    hobject hbodies htokens
  refine ⟨hobject, hbodies, htokens, hmap.symm.trans hexpand, fun h => ?_⟩
  obtain ⟨error, herror, -⟩ := hoverruns.mpr h
  rw [herror] at hexpand
  cases hexpand

/-- The macros that `#define here __LINE__` defines besides `__LINE__`. -/
def hereTable : Table :=
  Table.define (Table.define ∅ (Builtin.dynamic "__LINE__"))
    { name := "here", replacement := [wordAt "__LINE__" 14] }

/-- The value of `__LINE__` in the first line, as it comes out of `here`. -/
def lineValue : Token :=
  { kind := .number, text := "1", location := (wordAt "here" 1).location
    hide := (HideSet.insert ∅ "here").insert "__LINE__" }

/-- At a limit of one active name, `__LINE__` within `here` still becomes its value, although it is
the name of a macro and one more than `here`. -/
theorem Expander.expand_line_at_limit :
    let e : Expander := { table := hereTable, limit := 1 }
    (e.definition? (wordAt "__LINE__" 1)).isSome ∧ "__LINE__" ∉ HideSet.insert ∅ "here" ∧
    e.limit < ((HideSet.insert ∅ "here").insert "__LINE__").size ∧
    e.expand [wordAt "here" 1] = .ok ⟨[lineValue], ["here"]⟩ := by
  have hhalted : (Machine.step { table := hereTable, limit := 1 })^[3]
      (Machine.start [wordAt "here" 1]) = .halted (.ok ⟨[lineValue], ["here"]⟩) := by cbv
  exact ⟨by decide, by decide, by decide, Machine.expand_of_halted 3 hhalted⟩

end CPreprocessor
