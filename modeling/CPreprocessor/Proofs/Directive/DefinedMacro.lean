import CPreprocessor.Directive.Run
import CPreprocessor.Proofs.Condition.Answers
import CPreprocessor.Proofs.Expansion.Plain
import CPreprocessor.Proofs.Macro.Reachable

/-!
# A `defined` that comes out of a macro

The operators that are written in a condition are answered first, so that their operands are never
expanded. One that comes out of a macro is answered last, when its operand was expanded like any other
name. It means the same if the operand stays a name; if not, it is applied to what the operand stands for
(`SourceUnit.evaluate_appliesDefined`).
-/

namespace CPreprocessor

/-! ## Applications of `defined` -/

theorem forms_inPlaceOf (t : Token) (ts : List Token) : forms (inPlaceOf t ts) = forms ts := by
  rw [forms, forms, significant, significant, inPlaceOf, List.filter_map, List.map_map]
  rfl

namespace Defined

/-- Whether `defined` is applied to what stands between two lists of tokens, with parentheses or
without. -/
def Around (opening closing : List Token) : Prop :=
  (forms opening = [(.identifier, "defined")] ∧ forms closing = []) ∨
    (forms opening = [(.identifier, "defined"), (.punctuator, "(")] ∧
      forms closing = [(.punctuator, ")")])

namespace Around

variable {opening closing before after : List Token} {operand t : Token}

theorem placed (h : Around opening closing) (t : Token) :
    Around (inPlaceOf t opening) (inPlaceOf t closing) := by
  rw [Around, forms_inPlaceOf, forms_inPlaceOf]
  exact h

theorem layout (h : Around opening closing) (hbefore : ∀ t ∈ before, t.isLayout = true)
    (hafter : ∀ t ∈ after, t.isLayout = true) : Around (before ++ opening) (closing ++ after) := by
  rw [Around, forms_append, forms_append, forms_of_layout hbefore, forms_of_layout hafter,
    List.nil_append, List.append_nil]
  exact h

theorem mem_closing (h : Around opening closing) (ht : t ∈ closing) :
    t.isLayout = true ∨ t.form = (.punctuator, ")") := by
  refine (mem_forms ht).imp_right fun hform => ?_
  rcases h with ⟨-, hclosing⟩ | ⟨-, hclosing⟩ <;> rw [hclosing] at hform
  · cases hform
  · exact List.mem_singleton.mp hform

theorem mem_opening (h : Around opening closing) (ht : t ∈ opening) :
    t.isLayout = true ∨ t.form = (.identifier, "defined") ∨ t.form = (.punctuator, "(") := by
  refine (mem_forms ht).imp_right fun hform => ?_
  rcases h with ⟨hopening, -⟩ | ⟨hopening, -⟩ <;> rw [hopening] at hform
  · exact .inl (List.mem_singleton.mp hform)
  · simpa using hform

theorem mem (h : Around opening closing) (hoperand : operand.kind = .identifier)
    (ht : t ∈ opening ++ operand :: closing) :
    t.isLayout = true ∨ t.kind = .identifier ∨ t.form = (.punctuator, "(") ∨
      t.form = (.punctuator, ")") := by
  rcases List.mem_append.mp ht with ht | ht
  · exact (h.mem_opening ht).imp_right fun hform => hform.imp (congrArg Prod.fst) .inl
  rcases List.mem_cons.mp ht with rfl | ht
  · exact .inr (.inl hoperand)
  · exact (h.mem_closing ht).imp_right fun hform => .inr (.inr hform)

/-- The tokens that count: the operator, its operand and the parentheses. -/
theorem significant_eq (h : Around opening closing) (hoperand : operand.kind = .identifier) :
    ∃ keyword, isOperator keyword = true ∧
      (significant (opening ++ operand :: closing) = [keyword, operand] ∨
        ∃ opened closed, opened.isPunctuator "(" = true ∧ closed.isPunctuator ")" = true ∧
          significant (opening ++ operand :: closing) = [keyword, opened, operand, closed]) := by
  have hsplit : significant (opening ++ operand :: closing) =
      significant opening ++ operand :: significant closing := by
    rw [significant, List.filter_append, List.filter_cons_of_pos]
    · rfl
    · simp [Token.isLayout, hoperand, Kind.isLayout]
  rw [hsplit]
  have hkeyword : ∀ {t : Token}, t.form = (.identifier, "defined") → isOperator t = true := by
    intro t ht
    simp [isOperator, Token.isIdentifier, show t.kind = .identifier from congrArg Prod.fst ht,
      show t.text = "defined" from congrArg Prod.snd ht]
  have hmark : ∀ {t : Token} {text : String}, t.form = (.punctuator, text) →
      t.isPunctuator text = true := fun ht =>
    Token.isPunctuator_iff.mpr ⟨congrArg Prod.fst ht, congrArg Prod.snd ht⟩
  rcases h with ⟨hopening, hclosing⟩ | ⟨hopening, hclosing⟩
  · obtain ⟨keyword, hopening, hk⟩ := List.map_eq_singleton_iff.mp hopening
    rw [hopening, List.map_eq_nil_iff.mp hclosing]
    exact ⟨keyword, hkeyword hk, .inl rfl⟩
  · obtain ⟨keyword, _, hopening, hk, hopened⟩ := List.map_eq_cons_iff.mp hopening
    obtain ⟨opened, rfl, ho⟩ := List.map_eq_singleton_iff.mp hopened
    obtain ⟨closed, hclosing, hc⟩ := List.map_eq_singleton_iff.mp hclosing
    rw [hopening, hclosing]
    exact ⟨keyword, hkeyword hk, .inr ⟨opened, closed, hmark ho, hmark hc, rfl⟩⟩

theorem stays (h : Around opening closing) (hoperand : operand.kind = .identifier)
    (ht : t ∈ opening ++ operand :: closing) : t.Stays := by
  rcases h.mem hoperand ht with hlayout | hkind | hform | hform
  · exact (Token.kind_of_isLayout hlayout).2
  · exact ⟨by rw [hkind]; decide, by rw [hkind]; decide⟩
  all_goals
    have hkind : t.kind = .punctuator := congrArg Prod.fst hform
    exact ⟨by rw [hkind]; decide, by rw [hkind]; decide⟩

/-- If the operator is no macro, nothing before the operand is one. -/
theorem definition?_eq_none {e : Expander} (h : Around opening closing)
    (hdefined : e.table.lookup "defined" = none) (ht : t ∈ opening) : e.definition? t = none := by
  rcases h.mem_opening ht with hlayout | hform | hform
  · exact Expander.definition?_of_kind (Token.kind_of_isLayout hlayout).1
  · have htext : t.text = "defined" := congrArg Prod.snd hform
    rw [Expander.definition?, htext, hdefined, ite_self]
  · have hkind : t.kind = .punctuator := congrArg Prod.fst hform
    exact Expander.definition?_of_kind (by rw [hkind]; decide)

theorem isPunctuator_eq_false (h : Around opening closing) (hoperand : operand.kind = .identifier)
    (ht : t ∈ opening ++ operand :: closing) {text : String} (hopened : text ≠ "(")
    (hclosed : text ≠ ")") : t.isPunctuator text = false := by
  by_contra hmark
  obtain ⟨hkind, rfl⟩ := Token.isPunctuator_iff.mp (Bool.of_not_eq_false hmark)
  rcases h.mem hoperand ht with hlayout | hname | hform | hform
  · rw [Token.isLayout, hkind] at hlayout
    cases hlayout
  · rw [hkind] at hname
    cases hname
  · exact hopened (congrArg Prod.snd hform)
  · exact hclosed (congrArg Prod.snd hform)

theorem conditionTokens_eq (h : Around opening closing) (hoperand : operand.kind = .identifier) :
    conditionTokens (opening ++ operand :: closing) = significant (opening ++ operand :: closing) :=
  List.filter_congr fun t ht => by simp [(h.stays hoperand ht).1]

/-- Directly evaluated, it asks whether the operand is defined. -/
theorem leaf (h : Around opening closing) (hoperand : operand.kind = .identifier) :
    Expression.Leaf (conditionTokens (opening ++ operand :: closing)) (.defined operand.text) := by
  obtain ⟨keyword, hkeyword, hsignificant⟩ := h.significant_eq hoperand
  simp only [isOperator, Token.isIdentifier, Bool.and_eq_true, decide_eq_true_eq] at hkeyword
  rw [h.conditionTokens_eq hoperand]
  rcases hsignificant with heq | ⟨opened, closed, hopened, hclosed, heq⟩ <;> rw [heq]
  · exact .defined hkeyword.1 hkeyword.2 hoperand
  · exact .definedIn hkeyword.1 hkeyword.2 hopened hoperand hclosed

/-- Answered beforehand, it is one number. -/
theorem exists_resolve (h : Around opening closing) (hoperand : operand.kind = .identifier)
    (isDefined : String → Bool) :
    ∃ keyword resolved, resolve isDefined (opening ++ operand :: closing) = .ok resolved ∧
      conditionTokens resolved = [answer keyword (isDefined operand.text)] := by
  obtain ⟨keyword, hkeyword, hsignificant⟩ := h.significant_eq hoperand
  have hname : operand.isIdentifier = true := by simp [Token.isIdentifier, hoperand]
  have hplain : operand.isPunctuator "(" = false := by simp [Token.isPunctuator, hoperand]
  have hanswers : answers isDefined (conditionTokens (opening ++ operand :: closing)) =
      some [answer keyword (isDefined operand.text)] := by
    rw [h.conditionTokens_eq hoperand]
    rcases hsignificant with heq | ⟨opened, closed, hopened, hclosed, heq⟩
    · rw [heq, answers_operator hkeyword]
      simp [plainOperand, hname, hplain, answers_nil]
    · rw [heq, answers_operator hkeyword]
      simp [plainOperand, hname, hopened, hclosed, answers_nil]
  rw [answers_conditionTokens isDefined fun t ht => (h.stays hoperand ht).1] at hanswers
  obtain ⟨resolved, hresolved, heq⟩ := Option.map_eq_some_iff.mp hanswers
  refine ⟨keyword, resolved, ?_, heq⟩
  cases hresolve : resolve isDefined (opening ++ operand :: closing) with
  | error fault =>
    rw [hresolve] at hresolved
    cases hresolved
  | ok tokens =>
    rw [hresolve] at hresolved
    exact congrArg Except.ok (Option.some.inj hresolved)

/-- Besides that number, nothing but layout is left. -/
theorem kind_of_resolve (h : Around opening closing) (hoperand : operand.kind = .identifier)
    {isDefined : String → Bool} {resolved : List Token} {keyword : Token} {answered : Bool}
    (hresolve : resolve isDefined (opening ++ operand :: closing) = .ok resolved)
    (heq : conditionTokens resolved = [answer keyword answered]) (ht : t ∈ resolved) :
    t.isLayout = true ∨ t.kind = .number := by
  have hend : t.kind ≠ .endOfInput := by
    rcases mem_of_resolve hresolve ht with ht | ⟨u, -, answered, rfl⟩
    · exact (h.stays hoperand ht).1
    · exact nofun
  cases hlayout : t.isLayout with
  | true => exact .inl rfl
  | false =>
    have hmem : t ∈ conditionTokens resolved := List.mem_filter.mpr ⟨ht, by simp [hlayout, hend]⟩
    rw [heq] at hmem
    exact .inr (congrArg Token.kind (List.mem_singleton.mp hmem))

end Around

theorem leaf_answer (keyword : Token) (answered : Bool) :
    Expression.Leaf [answer keyword answered] (.constant (.ofBool answered)) :=
  .number rfl (Constant.integer_eq_ok_iff.mp (integer_answer keyword answered))

theorem resolve_of_plain {isDefined : String → Bool} {tokens : List Token}
    (h : ∀ t ∈ tokens, isOperator t = false) : resolve isDefined tokens = .ok tokens := by
  induction tokens with
  | nil => rw [resolve]
  | cons t tokens ih =>
    obtain ⟨ht, htokens⟩ := List.forall_mem_cons.mp h
    rw [resolve, ht, if_neg Bool.false_ne_true, ih htokens]
    rfl

end Defined

/-! ## Conditions -/

theorem Expression.Leaf.flat {tokens : List Token} {x : Expression} (h : Leaf tokens x) :
    x.parentheses = 0 ∧ x.nesting = 0 := by
  cases h <;> exact ⟨rfl, rfl⟩

theorem evaluate_of_leaf {s : Setting} {tokens : List Token} {x : Expression}
    (h : Expression.Leaf (conditionTokens tokens) x) :
    evaluate s tokens = ⟨x.eval s.isDefined, x.undefined s.isDefined⟩ := by
  have hderives : Expression.Derives 0 (conditionTokens tokens) x :=
    (Expression.Derives.leaf h).mono (Nat.le_refl _) (Nat.zero_le _)
  obtain ⟨hparentheses, hnesting⟩ := h.flat
  exact evaluate_of_derives hderives (by omega) (by omega)

namespace SourceUnit

variable {u : SourceUnit} {table : Table} {tokens resolved : List Token} {location : Option Location}

/-- The value of a condition, and the undefined names in it, once its macros are expanded. -/
def evaluateExpanded (u : SourceUnit) (table : Table) (location : Option Location) :
    Except ExpansionError Expander.Expansion → Except Report Value × List Token
  | .error error => (.error (error.reportIn u.listing), [])
  | .ok expansion =>
    let evaluation := CPreprocessor.evaluate
      { isDefined := table.isDefined, location, nestingLimit := u.setup.nestingLimit }
      expansion.tokens
    (evaluation.result.mapError (ConditionFault.report · (location.bind u.quote?)),
      evaluation.undefined)

theorem evaluate_of_resolve (h : Defined.resolve table.isDefined tokens = .ok resolved) :
    u.evaluate table tokens location =
      u.evaluateExpanded table location ((u.expander table).expand resolved) := by
  rw [evaluate, h]
  rfl

theorem evaluateExpanded_of_leaf {expansion : Expander.Expansion} {x : Expression} {v : Value}
    (h : Expression.Leaf (conditionTokens expansion.tokens) x) (heval : x.eval table.isDefined = .ok v)
    (hundefined : x.undefined table.isDefined = []) :
    u.evaluateExpanded table location (.ok expansion) = (.ok v, []) := by
  rw [evaluateExpanded, evaluate_of_leaf h, heval, hundefined]
  rfl

/-- Written in the condition, `defined` answers whether its operand is defined. -/
theorem evaluate_written {opening closing : List Token} {operand : Token}
    (h : Defined.Around opening closing) (hoperand : operand.kind = .identifier) :
    u.evaluate table (opening ++ operand :: closing) location =
      (.ok (.ofBool (table.isDefined operand.text)), []) := by
  obtain ⟨keyword, resolved, hresolve, heq⟩ := h.exists_resolve hoperand table.isDefined
  have hkind : ∀ t ∈ resolved, t.kind ≠ .identifier ∧ t.Stays := by
    intro t ht
    rcases h.kind_of_resolve hoperand hresolve heq ht with hlayout | hnumber
    · exact Token.kind_of_isLayout hlayout
    · exact ⟨by simp [hnumber], by simp [hnumber], by simp [hnumber]⟩
  rw [evaluate_of_resolve hresolve, Expander.expand_plain (fun t ht => (hkind t ht).2)
    fun t ht => Expander.definition?_of_kind (hkind t ht).1]
  exact evaluateExpanded_of_leaf (heq ▸ Defined.leaf_answer keyword _) rfl rfl

end SourceUnit

/-- Whether `d` is the macro `name`, takes no arguments, and applies `defined` to a name. -/
structure Table.AppliesDefined (table : Table) (name : String) (d : Definition)
    (opening : List Token) (operand : Token) (closing : List Token) : Prop where
  found : table.lookup name = some d
  isFunction : d.isFunction = false
  dynamic : (d.builtin && Builtin.dynamicNames.contains name) = false
  replacement : d.replacement = opening ++ operand :: closing
  around : Defined.Around opening closing
  operand : operand.kind = .identifier

/-- Whether the name `other` stays a name in what the macro `name` is replaced by, if nothing that
could be arguments follows it. -/
def Expander.LeavesIn (e : Expander) (name other : String) : Prop :=
  ∀ d, e.table.lookup other = some d → other ∈ e.frozen ∨ other = name ∨
    (d.isFunction = true ∧ (d.builtin && Builtin.dynamicNames.contains other) = false)

theorem Expander.LeavesIn.exists_turn {e : Expander} {name operand : Token} {rest : List Token}
    (h : e.LeavesIn name.text operand.text) (hoperand : operand.kind = .identifier)
    (hopens : opensArguments rest = false) :
    ∃ kept : Token, kept.kind = .identifier ∧ kept.text = operand.text ∧
      e.turn (name.inPlaceOf operand) rest = .ok (.emit kept) := by
  have hkind : (name.inPlaceOf operand).kind = .identifier := hoperand
  cases hdefinition : e.definition? (name.inPlaceOf operand) with
  | none => exact ⟨_, hkind, rfl, by rw [turn, hdefinition]⟩
  | some d =>
    by_cases hhidden : (name.inPlaceOf operand).text ∈ (name.inPlaceOf operand).hide
    · refine ⟨(name.inPlaceOf operand).paint, hkind, rfl, ?_⟩
      rw [turn, hdefinition]
      exact if_pos hhidden
    have hfound : operand.text ∉ e.frozen ∧ e.table.lookup operand.text = some d := by
      rw [definition?] at hdefinition
      split at hdefinition
      · rename_i hopen
        have hfrozen : (name.inPlaceOf operand).text ∉ e.frozen := by
          simpa using (Bool.and_eq_true_iff.mp hopen).2
        exact ⟨hfrozen, hdefinition⟩
      · cases hdefinition
    rcases h d hfound.2 with hfrozen | heq | ⟨hfunction, hdynamic⟩
    · exact absurd hfrozen hfound.1
    · exact absurd (HideSet.mem_insert.mpr (.inl heq)) hhidden
    · refine ⟨_, hkind, rfl, ?_⟩
      have hvalue : (d.builtin &&
          Builtin.dynamicNames.contains (name.inPlaceOf operand).text) = false := hdynamic
      rw [turn, hdefinition]
      simp only [if_neg hhidden, hvalue, hfunction, hopens, Bool.not_true, Bool.false_eq_true,
        if_false]

section

variable {u : SourceUnit} {table : Table} {name operand : Token} {d : Definition}
  {opening closing before after : List Token} {location : Option Location}

theorem Table.AppliesDefined.replacing? (happlies : table.AppliesDefined name.text d opening operand closing)
    (hkind : name.kind = .identifier) (hpainted : name.painted = false)
    (hfrozen : name.text ∉ u.setup.frozen) : (u.expander table).replacing? ∅ name = some d := by
  have hdefinition : (u.expander table).definition? name = some d := by
    rw [Expander.definition?, if_pos]
    · exact happlies.found
    · simp [Token.isIdentifier, hkind, hpainted, SourceUnit.expander, hfrozen]
  rw [Expander.replacing?, hdefinition, Option.filter_some, happlies.dynamic]
  rfl

theorem Table.AppliesDefined.mem_replacement
    (happlies : table.AppliesDefined name.text d opening operand closing)
    (hreachable : table.Reachable) :
    ∀ t ∈ d.replacement, t.isPunctuator "##" = false ∧ t.hide = ∅ ∧ t.Stays := by
  intro t ht
  have hbare := (hreachable.sound d (List.mem_of_find?_eq_some happlies.found)).bare t ht
  rw [happlies.replacement] at ht
  exact ⟨happlies.around.isPunctuator_eq_false happlies.operand ht (by decide) (by decide), hbare,
    happlies.around.stays happlies.operand ht⟩

/-- No operator is written in a condition that is only the name of the macro. -/
theorem Table.AppliesDefined.resolve_eq (happlies : table.AppliesDefined name.text d opening operand closing)
    (hreachable : table.Reachable) (hbefore : ∀ t ∈ before, t.isLayout = true)
    (hafter : ∀ t ∈ after, t.isLayout = true) :
    Defined.resolve table.isDefined (before ++ name :: after) = .ok (before ++ name :: after) := by
  have hlayout : ∀ t : Token, t.isLayout = true → Defined.isOperator t = false := by
    intro t ht
    simp [Defined.isOperator, Token.isIdentifier, (Token.kind_of_isLayout ht).1]
  have hname : Defined.isOperator name = false := by
    have htext : name.text ≠ "defined" := by
      intro htext
      have hfound := happlies.found
      rw [htext, hreachable.lookup_defined] at hfound
      cases hfound
    simp [Defined.isOperator, htext]
  exact Defined.resolve_of_plain <| List.forall_mem_append.mpr
    ⟨fun t ht => hlayout t (hbefore t ht),
      List.forall_mem_cons.mpr ⟨hname, fun t ht => hlayout t (hafter t ht)⟩⟩

namespace SourceUnit

/-- A condition that is only the name of the macro is replaced up to the operand. -/
theorem expand_appliesDefined (hreachable : table.Reachable)
    (happlies : table.AppliesDefined name.text d opening operand closing)
    (hkind : name.kind = .identifier) (hhide : name.hide = ∅) (hpainted : name.painted = false)
    (hbefore : ∀ t ∈ before, t.isLayout = true)
    (hfrozen : name.text ∉ u.setup.frozen) (hdepth : 1 ≤ u.setup.maxDepth) :
    (u.expander table).expand (before ++ name :: after) =
      ((u.expander table).expand (inPlaceOf name (operand :: closing) ++ after)).map fun expansion =>
        ⟨before ++ inPlaceOf name opening ++ expansion.tokens, name.text :: expansion.trace⟩ := by
  have hdefined : (u.expander table).table.lookup "defined" = none := hreachable.lookup_defined
  have hopening : ∀ t ∈ inPlaceOf name opening, (u.expander table).definition? t = none :=
    fun t ht => (happlies.around.placed name).definition?_eq_none hdefined ht
  have hstays : ∀ t ∈ inPlaceOf name opening, t.Stays :=
    Expander.stays_inPlaceOf name fun t ht =>
      happlies.around.stays happlies.operand (List.mem_append_left _ ht)
  have hreplacing := happlies.replacing? (u := u) hkind hpainted hfrozen
  have hbody := happlies.mem_replacement hreachable
  have hsplit : inPlaceOf name d.replacement ++ after =
      inPlaceOf name opening ++ name.inPlaceOf operand :: (inPlaceOf name closing ++ after) := by
    rw [happlies.replacement, inPlaceOf, List.map_append, List.map_cons, List.append_assoc]
    rfl
  rw [Expander.expand_plain_append (fun t ht => (Token.kind_of_isLayout (hbefore t ht)).2)
      (fun t ht => Expander.definition?_of_kind (Token.kind_of_isLayout (hbefore t ht)).1),
    Expander.expand_object hhide hreplacing happlies.isFunction hdepth hbody, hsplit,
    Expander.expand_plain_append hstays hopening]
  change _ = ((u.expander table).expand
    (name.inPlaceOf operand :: (inPlaceOf name closing ++ after))).map _
  cases (u.expander table).expand (name.inPlaceOf operand :: (inPlaceOf name closing ++ after)) with
  | error error => rfl
  | ok expansion => simp [Except.map, List.append_assoc]

/-- An operand that stays a name is still there when the condition is expanded. -/
theorem expand_operand (happlies : table.AppliesDefined name.text d opening operand closing)
    (hleaves : (u.expander table).LeavesIn name.text operand.text)
    (hafter : ∀ t ∈ after, t.isLayout = true) :
    ∃ kept : Token, kept.kind = .identifier ∧ kept.text = operand.text ∧
      (u.expander table).expand (inPlaceOf name (operand :: closing) ++ after) =
        .ok ⟨kept :: (inPlaceOf name closing ++ after), []⟩ := by
  have hrest : ∀ t ∈ inPlaceOf name closing ++ after,
      t.isLayout = true ∨ t.form = (.punctuator, ")") := fun t ht => by
    rcases List.mem_append.mp ht with ht | ht
    · exact (happlies.around.placed name).mem_closing ht
    · exact .inl (hafter t ht)
  have hkinds : ∀ t ∈ inPlaceOf name closing ++ after, t.kind ≠ .identifier ∧ t.Stays := by
    intro t ht
    rcases hrest t ht with hlayout | hform
    · exact Token.kind_of_isLayout hlayout
    · have hkind : t.kind = .punctuator := congrArg Prod.fst hform
      exact ⟨by simp [hkind], by simp [hkind], by simp [hkind]⟩
  have hopens : opensArguments (inPlaceOf name closing ++ after) = false :=
    Expander.opensArguments_eq_false fun t ht => (hrest t ht).imp_right fun hform =>
      ne_of_eq_of_ne (congrArg Prod.snd hform) (by decide)
  obtain ⟨kept, hkept, htext, hturn⟩ := hleaves.exists_turn happlies.operand hopens
  have hplaced : (name.inPlaceOf operand).kind = .identifier := happlies.operand
  exact ⟨kept, hkept, htext, Expander.expand_emit_plain hturn (by simp [hplaced]) (by simp [hkept])
    (fun t ht => (hkinds t ht).2) fun t ht => Expander.definition?_of_kind (hkinds t ht).1⟩

/-- The value of a condition that is only the name of a macro for `defined` applied to a name. The
operand is expanded, with what follows it, before the operator is answered. If it stays a name, the value
is that of the operator written in the condition. -/
theorem evaluate_appliesDefined (hreachable : table.Reachable)
    (happlies : table.AppliesDefined name.text d opening operand closing)
    (hkind : name.kind = .identifier) (hhide : name.hide = ∅) (hpainted : name.painted = false)
    (hbefore : ∀ t ∈ before, t.isLayout = true) (hafter : ∀ t ∈ after, t.isLayout = true)
    (hfrozen : name.text ∉ u.setup.frozen) (hdepth : 1 ≤ u.setup.maxDepth)
    {opening' closing' : List Token} {operand' : Token} (hwritten : Defined.Around opening' closing')
    (hoperand : operand'.kind = .identifier) (htext : operand'.text = operand.text) :
    u.evaluate table (opening' ++ operand' :: closing') location =
        (.ok (.ofBool (table.isDefined operand.text)), []) ∧
      u.evaluate table (before ++ name :: after) location =
        u.evaluateExpanded table location
          (((u.expander table).expand (inPlaceOf name (operand :: closing) ++ after)).map
            fun expansion =>
              ⟨before ++ inPlaceOf name opening ++ expansion.tokens, name.text :: expansion.trace⟩) ∧
      ((u.expander table).LeavesIn name.text operand.text →
        u.evaluate table (before ++ name :: after) location =
          u.evaluate table (opening' ++ operand' :: closing') location) := by
  have hvalue : u.evaluate table (opening' ++ operand' :: closing') location =
      (.ok (.ofBool (table.isDefined operand.text)), []) := by
    rw [← htext]
    exact evaluate_written hwritten hoperand
  have hexpanded : u.evaluate table (before ++ name :: after) location =
      u.evaluateExpanded table location ((u.expander table).expand (before ++ name :: after)) :=
    evaluate_of_resolve (happlies.resolve_eq hreachable hbefore hafter)
  rw [expand_appliesDefined hreachable happlies hkind hhide hpainted hbefore hfrozen hdepth] at hexpanded
  refine ⟨hvalue, hexpanded, fun hleaves => ?_⟩
  obtain ⟨kept, hkept, hkeptText, hexpand⟩ := expand_operand happlies hleaves hafter
  rw [hvalue, hexpanded, hexpand, ← hkeptText]
  have hleaf := ((happlies.around.placed name).layout hbefore hafter).leaf hkept
  exact evaluateExpanded_of_leaf hleaf rfl rfl

end SourceUnit

end

/-! ## A macro that asks whether `X` is defined -/

/-- A token of a definition on the command line. -/
def typedAt (kind : Kind) (text : String) (column : Int) : Token :=
  { kind, text, location := ⟨"<command line>", 1, column⟩ }

/-- The macro that `#define N defined(X)` defines, as the second of a table. -/
def askingMacro : Definition where
  name := "N"
  replacement :=
    [typedAt .identifier "defined" 3, typedAt .punctuator "(" 10, typedAt .identifier "X" 11,
      typedAt .punctuator ")" 12]
  version := 2
  location := some ⟨"<command line>", 1, 1⟩

/-- The table of a macro `X` and of the macro that asks for it. -/
def askingTable (d : Definition) : Table := Table.define (Table.define ∅ d) askingMacro

/-- The macro that `#define X(a) a` defines. -/
def callableMacro : Definition where
  name := "X"
  shape := .function ["a"] false
  replacement := [typedAt .identifier "a" 6]
  location := some ⟨"<command line>", 1, 1⟩

/-- The macro that `#define X Y` defines. -/
def renamedMacro : Definition where
  name := "X"
  replacement := [typedAt .identifier "Y" 3]
  location := some ⟨"<command line>", 1, 1⟩

theorem reachable_askingTable {d : Definition} (text : String)
    (h : Table.defineSource ∅ { text, file := "<command line>" } = .ok (Table.define ∅ d)) :
    (askingTable d).Reachable := by
  have hdefined : Table.defineSource (Table.define ∅ d)
      { text := "N defined(X)", file := "<command line>" } = .ok (askingTable d) := by
    have hparsed : Source.definition { text := "N defined(X)", file := "<command line>" } false =
        .ok { askingMacro with version := 0 } := by cbv
    rw [Table.defineSource, hparsed]
    rfl
  exact (Table.Reachable.empty.defineSource h).defineSource hdefined

theorem appliesDefined_askingTable {d : Definition} (h : (askingTable d).lookup "N" = some askingMacro) :
    (askingTable d).AppliesDefined "N" askingMacro
      [typedAt .identifier "defined" 3, typedAt .punctuator "(" 10] (typedAt .identifier "X" 11)
      [typedAt .punctuator ")" 12] where
  found := h
  isFunction := rfl
  dynamic := rfl
  replacement := rfl
  around := .inr ⟨by decide, by decide⟩
  operand := rfl

namespace SourceUnit

/-- A macro with parameters is defined, and stays a name where no arguments follow. -/
theorem evaluate_appliesDefined_callable :
    let u : SourceUnit := { source := { text := "" } }
    let table := askingTable callableMacro
    table.Reachable ∧ (u.expander table).LeavesIn "N" "X" ∧
      u.evaluate table [wordAt "N" 1] none = (.ok (.ofBool true), []) := by
  intro u table
  have hreachable : table.Reachable := reachable_askingTable "X(a) a" (by cbv)
  have hleaves : (u.expander table).LeavesIn "N" "X" := by
    have hfound : table.lookup "X" = some { callableMacro with version := 1 } := by decide
    intro d hd
    cases hfound.symm.trans hd
    exact .inr (.inr ⟨rfl, by decide⟩)
  have happlies := appliesDefined_askingTable (d := callableMacro) (by decide)
  have hwritten : Defined.Around [wordAt "defined" 1] [] := .inl ⟨by decide, rfl⟩
  have hoperand : (wordAt "X" 9).kind = .identifier := rfl
  have hblank : ∀ t ∈ ([] : List Token), t.isLayout = true := by simp
  obtain ⟨hvalue, -, hsame⟩ := @evaluate_appliesDefined u table (wordAt "N" 1) _ _ _ _ [] [] none
    hreachable happlies rfl rfl rfl hblank hblank (by decide) (by decide) _ _ _ hwritten hoperand rfl
  refine ⟨hreachable, hleaves, (hsame hleaves).trans ?_⟩
  rw [hvalue]
  decide

/-- What `X` stands for is not defined, although `X` is. -/
theorem evaluate_ne_written_renamed :
    let u : SourceUnit := { source := { text := "" } }
    let table := askingTable renamedMacro
    table.Reachable ∧
      table.AppliesDefined "N" askingMacro
        [typedAt .identifier "defined" 3, typedAt .punctuator "(" 10] (typedAt .identifier "X" 11)
        [typedAt .punctuator ")" 12] ∧
      u.evaluate table [wordAt "N" 1] none = (.ok (.ofBool false), []) ∧
      u.evaluate table [wordAt "defined" 1, markAt "(" 8, wordAt "X" 9, markAt ")" 10] none =
        (.ok (.ofBool true), []) := by
  intro u table
  have hreachable : table.Reachable := reachable_askingTable "X Y" (by cbv)
  have happlies := appliesDefined_askingTable (d := renamedMacro) (by decide)
  have hname : u.evaluate table [wordAt "N" 1] none = (.ok (.ofBool false), []) := by
    have hhalted : (Machine.step (u.expander table))^[7] (Machine.start [wordAt "N" 1]) =
        .halted (.ok ⟨[(markAt ")" 1).within (HideSet.insert ∅ "N"),
          (wordAt "Y" 1).within ((HideSet.insert ∅ "N").insert "X"),
          (markAt "(" 1).within (HideSet.insert ∅ "N"),
          (wordAt "defined" 1).within (HideSet.insert ∅ "N")], ["X", "N"]⟩) := by cbv
    have hresolve : Defined.resolve table.isDefined [wordAt "N" 1] = .ok [wordAt "N" 1] := by cbv
    rw [evaluate_of_resolve hresolve, Machine.expand_of_halted 7 hhalted]
    cbv
  have hwritten : Defined.Around [wordAt "defined" 1, markAt "(" 8] [markAt ")" 10] :=
    .inr ⟨by decide, by decide⟩
  have hvalue : u.evaluate table [wordAt "defined" 1, markAt "(" 8, wordAt "X" 9, markAt ")" 10] none =
      (.ok (.ofBool true), []) := (evaluate_written hwritten rfl).trans (by decide)
  exact ⟨hreachable, happlies, hname, hvalue⟩

end SourceUnit

end CPreprocessor
