import CPreprocessor.Proofs.Condition.Acceptance
import CPreprocessor.Proofs.Source.Content

/-!
# Conditions are evaluated by their spelling

What value a condition has, or else what is wrong with it, depends on the kinds and the spellings of its
tokens alone: not on their places, nor on where they came from. It does not depend on the limit of the
nesting either, unless that is what keeps the condition from having a value (`outcome_of_nesting`).
-/

namespace CPreprocessor

/-- Two cursors with rests that are spelled alike. -/
def Cursor.SpeltAs (c d : Cursor) : Prop := d.rest.map Token.form = c.rest.map Token.form

namespace Cursor.SpeltAs

variable {c d : Cursor}

theorem advance (h : c.SpeltAs d) : c.advance.SpeltAs d.advance := by
  rw [SpeltAs, Cursor.advance, Cursor.advance, List.map_tail, List.map_tail, h]

theorem cases (h : c.SpeltAs d) :
    (c.rest = [] ∧ d.rest = []) ∨
      ∃ t ts u us, c.rest = t :: ts ∧ d.rest = u :: us ∧ u.kind = t.kind ∧ u.text = t.text := by
  rw [SpeltAs] at h
  cases hc : c.rest with
  | nil =>
    rw [hc] at h
    exact .inl ⟨rfl, List.map_eq_nil_iff.mp h⟩
  | cons t ts =>
    cases hd : d.rest with
    | nil =>
      rw [hc, hd] at h
      cases h
    | cons u us =>
      rw [hc, hd] at h
      have hform : u.form = t.form := (List.cons.inj h).1
      exact .inr ⟨t, ts, u, us, rfl, rfl, congrArg Prod.fst hform, congrArg Prod.snd hform⟩

theorem at? (h : c.SpeltAs d) (text : String) : d.at? text = c.at? text := by
  rw [Cursor.at?, Cursor.at?]
  obtain ⟨hc, hd⟩ | ⟨t, ts, u, us, hc, hd, hkind, htext⟩ := h.cases
  · rw [hc, hd]
  · rw [hc, hd, List.head?_cons, List.head?_cons, Option.any_some, Option.any_some,
      Token.isPunctuator, hkind, htext, Token.isPunctuator]

theorem unary? (h : c.SpeltAs d) : d.unary? = c.unary? := by
  rw [Cursor.unary?, Cursor.unary?]
  obtain ⟨hc, hd⟩ | ⟨t, ts, u, us, hc, hd, hkind, htext⟩ := h.cases
  · rw [hc, hd]
  · rw [hc, hd]
    simp only [hkind, htext]

theorem operator? (h : c.SpeltAs d) (level : Nat) :
    (d.operator? level).map Prod.fst = (c.operator? level).map Prod.fst := by
  rw [Cursor.operator?, Cursor.operator?]
  obtain ⟨hc, hd⟩ | ⟨t, ts, u, us, hc, hd, hkind, htext⟩ := h.cases
  · rw [hc, hd]
  · rw [hc, hd]
    simp only [hkind, htext]
    split
    · rw [Option.map_map, Option.map_map]
      rfl
    · rfl

end Cursor.SpeltAs

/-- Outcomes of the same reading for tokens that are spelled alike, where the second one may nest `extra`
operators more. Only what is refused for its nesting may have another outcome then. -/
def SpeltAlike (extra : Nat) :
    Except Failure (Value × Cursor) → Except Failure (Value × Cursor) → Prop
  | .ok (v, c), other => ∃ d, other = .ok (v, d) ∧ c.SpeltAs d
  | .error failure, other =>
    (∃ failure', other = .error failure' ∧ failure'.fault.cause = failure.fault.cause) ∨
      0 < extra ∧ failure.fault.cause = .nestedTooDeeply

namespace SpeltAlike

variable {extra : Nat} {read other : Except Failure (Value × Cursor)}
  {f g : Value → Cursor → Except Failure (Value × Cursor)} {c d : Cursor} {v : Value}

/-- What is done with what was read. -/
theorem bind :
    SpeltAlike extra read other →
    (∀ (v : Value) (c d : Cursor), read = .ok (v, c) → c.SpeltAs d →
      SpeltAlike extra (f v c) (g v d)) →
    SpeltAlike extra
      (match read with
      | .error failure => .error failure
      | .ok (v, c) => f v c)
      (match other with
      | .error failure => .error failure
      | .ok (v, d) => g v d) := by
  intro h hf
  cases read with
  | error failure =>
    obtain ⟨failure', rfl, hcause⟩ | hnested := h
    · exact .inl ⟨failure', rfl, hcause⟩
    · exact .inr hnested
  | ok result =>
    obtain ⟨d, rfl, hd⟩ := h
    exact hf result.1 result.2 d rfl hd

theorem fail {cause : ConditionFault} {location location' : Option Location} :
    SpeltAlike extra (.error (c.fail cause location)) (.error (d.fail cause location')) :=
  .inl ⟨_, rfl, rfl⟩

theorem ok (h : c.SpeltAs d) : SpeltAlike extra (.ok (v, c)) (.ok (v, d)) := ⟨d, rfl, h⟩

/-- What is checked before an operator is nested. -/
theorem nested {nesting : Nat} {location location' : Option Location}
    (h : nesting ≠ 0 → SpeltAlike extra read other) :
    SpeltAlike extra (if nesting = 0 then .error (c.fail .nestedTooDeeply location) else read)
      (if nesting + extra = 0 then .error (d.fail .nestedTooDeeply location') else other) := by
  by_cases hzero : nesting = 0
  · rw [if_pos hzero]
    by_cases hextra : nesting + extra = 0
    · rw [if_pos hextra]
      exact fail
    · exact .inr ⟨by omega, rfl⟩
  · rw [if_neg hzero, if_neg (by omega)]
    exact h hzero

theorem constant {x : Except ConditionFault Value} {location location' : Option Location} :
    c.SpeltAs d →
    SpeltAlike extra
      (match x with
      | .error cause => .error (c.fail cause location)
      | .ok value => .ok (value, c.advance))
      (match x with
      | .error cause => .error (d.fail cause location')
      | .ok value => .ok (value, d.advance)) := by
  intro h
  cases x with
  | error cause => exact fail
  | ok value => exact ok h.advance

end SpeltAlike

/-- The same function, whatever the place that it is given. -/
inductive Part.Displaced : Part → Part → Prop
  | refl (part : Part) : Displaced part part
  | defined (keyword keyword' : Location) : Displaced (defined keyword) (defined keyword')

namespace Evaluator

/-- Evaluators of conditions that end with tokens spelled alike. -/
structure SpeltAs (e e' : Evaluator) : Prop where
  isDefined : e'.isDefined = e.isDefined
  last : e'.last.text = e.last.text

variable {e e' : Evaluator} {extra : Nat} {m : Mode} {c : Cursor}

/-- A reading by one function, and the readings of tokens that are spelled alike. -/
def ReadsAlike (e e' : Evaluator) (extra : Nat) (part : Part) (m : Mode) (c : Cursor) : Prop :=
  ∀ part' d, part.Displaced part' → c.SpeltAs d →
    SpeltAlike extra (e.read part m c) (e'.read part' { m with nesting := m.nesting + extra } d)

theorem readsAlike_defined (he : e.SpeltAs e') {keyword : Location} :
    ReadsAlike e e' extra (.defined keyword) m c := by
  intro part' d hpart h
  obtain ⟨keyword', rfl⟩ : ∃ keyword', part' = .defined keyword' := by
    cases hpart with
    | refl => exact ⟨_, rfl⟩
    | defined keyword keyword' => exact ⟨_, rfl⟩
  have hopened : (if c.at? "(" then c.advance else c).SpeltAs
      (if c.at? "(" then d.advance else d) := by
    split
    · exact h.advance
    · exact h
  simp only [read]
  rw [readDefined_eq, readDefined_eq, h.at?]
  simp only
  generalize (if c.at? "(" then c.advance else c) = opened at hopened ⊢
  generalize (if c.at? "(" then d.advance else d) = opened' at hopened ⊢
  obtain ⟨hc, hd⟩ | ⟨t, ts, u, us, hc, hd, hkind, htext⟩ := hopened.cases
  · rw [hc, hd]
    exact .fail
  · have hidentifier : u.isIdentifier = t.isIdentifier := by
      rw [Token.isIdentifier, hkind, Token.isIdentifier]
    rw [hc, hd, List.head?_cons, List.head?_cons, Option.filter_some, Option.filter_some, hidentifier]
    cases t.isIdentifier with
    | false => exact .fail
    | true =>
      simp only [if_true]
      rw [htext, he.isDefined, hopened.advance.at?]
      split
      · split
        · exact .ok hopened.advance.advance
        · exact .fail
      · exact .ok hopened.advance

theorem readsAlike_conditional (hoperators : ReadsAlike e e' extra (.operators 0) m c)
    (h : ∀ m' c', c'.rest.length < c.rest.length → ReadsAlike e e' extra .conditional m' c') :
    ReadsAlike e e' extra .conditional m c := by
  rintro _ d ⟨⟩ hd
  simp only [read]
  rw [readConditional_eq e m c, readConditional_eq e' _ d]
  refine (hoperators _ d (.refl _) hd).bind fun condition c₁ d₁ hread hd₁ => ?_
  have hlength₁ := length_of_readOperators hread
  rw [hd₁.at?]
  split
  · rename_i hmark
    have hlength₂ := Cursor.length_advance_of_at? hmark
    refine .nested fun hnesting => ?_
    have hless : m.nesting + extra - 1 = m.nesting - 1 + extra := by omega
    simp only [hless]
    refine (h { m with live := m.live && condition.truthy, nesting := m.nesting - 1 } c₁.advance
      (by omega) .conditional d₁.advance (.refl _) hd₁.advance).bind fun whenTrue c₃ d₃ hread hd₃ => ?_
    have hlength₃ := length_of_readConditional hread
    rw [hd₃.at?]
    split
    · rename_i hcolon
      have hlength₄ := Cursor.length_advance_of_at? hcolon
      exact (h { m with live := m.live && !condition.truthy, nesting := m.nesting - 1 } c₃.advance
        (by omega) .conditional d₃.advance (.refl _) hd₃.advance).bind fun whenFalse c₅ d₅ _ hd₅ =>
          .ok hd₅
    · exact .fail
  · exact .ok hd₁

theorem readsAlike_operators {level : Nat} (hlt : level < BinaryOperator.levels)
    (hoperators : ReadsAlike e e' extra (.operators (level + 1)) m c)
    (h : ∀ left m' c', c'.rest.length < c.rest.length →
      ReadsAlike e e' extra (.more level left) m' c') :
    ReadsAlike e e' extra (.operators level) m c := by
  rintro _ d ⟨⟩ hd
  simp only [read]
  rw [readOperators_eq e m c, readOperators_eq e' _ d, if_pos hlt, if_pos hlt]
  exact (hoperators _ d (.refl _) hd).bind fun left c₁ d₁ hread hd₁ =>
    h left m c₁ (length_of_readOperators hread) _ d₁ (.refl _) hd₁

theorem readsAlike_tightest {level : Nat} (hle : ¬ level < BinaryOperator.levels)
    (hunary : ReadsAlike e e' extra .unary m c) : ReadsAlike e e' extra (.operators level) m c := by
  rintro _ d ⟨⟩ hd
  simp only [read]
  rw [readOperators_eq e m c, readOperators_eq e' _ d, if_neg hle, if_neg hle]
  exact hunary _ d (.refl _) hd

theorem readsAlike_more {level : Nat} {left : Value}
    (hoperators : ∀ m' c', c'.rest.length < c.rest.length →
      ReadsAlike e e' extra (.operators (level + 1)) m' c')
    (h : ∀ left' m' c', c'.rest.length < c.rest.length →
      ReadsAlike e e' extra (.more level left') m' c') :
    ReadsAlike e e' extra (.more level left) m c := by
  rintro _ d ⟨⟩ hd
  simp only [read]
  rw [readMore_eq e m c, readMore_eq e' _ d]
  have hoperator := hd.operator? level
  cases hop : c.operator? level with
  | none =>
    rw [hop] at hoperator
    rw [Option.map_eq_none_iff.mp hoperator]
    exact .ok hd
  | some found =>
    obtain ⟨op, place⟩ := found
    rw [hop] at hoperator
    obtain ⟨⟨op', place'⟩, hop', heq⟩ := Option.map_eq_some_iff.mp hoperator
    obtain rfl : op' = op := heq
    have hlength := Cursor.length_advance_of_operator? hop
    rw [hop']
    refine (hoperators { m with live := m.live && op'.evaluatesRight left } c.advance hlength _ d.advance
      (.refl _) hd.advance).bind fun right c₂ d₂ hread hd₂ => ?_
    have hlength₂ := length_of_readOperators hread
    simp only
    cases (if m.live then op'.apply left right else .ok (op'.skip left right)) with
    | error cause => exact .fail
    | ok value => exact h value m c₂ (by omega) _ d₂ (.refl _) hd₂

theorem readsAlike_unary (hprimary : ReadsAlike e e' extra .primary m c)
    (h : ∀ m' c', c'.rest.length < c.rest.length → ReadsAlike e e' extra .unary m' c') :
    ReadsAlike e e' extra .unary m c := by
  rintro _ d ⟨⟩ hd
  simp only [read]
  rw [readUnary_eq e m c, readUnary_eq e' _ d, hd.unary?]
  cases hop : c.unary? with
  | none => exact hprimary _ d (.refl _) hd
  | some op =>
    refine .nested fun hnesting => ?_
    have hless : m.nesting + extra - 1 = m.nesting - 1 + extra := by omega
    simp only [hless]
    exact (h { m with nesting := m.nesting - 1 } c.advance (Cursor.length_advance_of_unary? hop) .unary
      d.advance (.refl _) hd.advance).bind fun value c₂ d₂ _ hd₂ => .ok hd₂

theorem readsAlike_primary (he : e.SpeltAs e')
    (hdefined : ∀ keyword m' c', ReadsAlike e e' extra (.defined keyword) m' c')
    (h : ∀ m' c', c'.rest.length < c.rest.length → ReadsAlike e e' extra .conditional m' c') :
    ReadsAlike e e' extra .primary m c := by
  rintro _ d ⟨⟩ hd
  simp only [read]
  obtain ⟨hc, hnil⟩ | ⟨t, ts, u, us, hc, hcons, hkind, htext⟩ := hd.cases
  · rw [readPrimary_nil e m c hc, readPrimary_nil e' _ d hnil, he.last]
    exact .fail
  · have hlength := Cursor.length_advance_of_cons hc
    have hpunctuator : u.isPunctuator "(" = t.isPunctuator "(" := by
      rw [Token.isPunctuator, hkind, htext, Token.isPunctuator]
    rw [readPrimary_eq e m c hc, readPrimary_eq e' _ d hcons, hkind, htext, hpunctuator]
    split
    · exact .constant hd
    · exact .constant hd
    · split
      · exact hdefined t.location m c.advance _ d.advance (.defined ..) hd.advance
      · split
        · exact .ok hd.advance
        · exact .ok hd.advance
    · exact .fail
    · split
      · split
        · exact .fail
        refine (h { m with parentheses := m.parentheses + 1 } c.advance hlength .conditional d.advance
          (.refl _) hd.advance).bind fun value c₂ d₂ _ hd₂ => ?_
        rw [hd₂.at?]
        split
        · exact .ok hd₂.advance
        · exact .fail
      · exact .fail

/-- Tokens that are spelled alike are read alike. -/
theorem readsAlike (he : e.SpeltAs e') (part : Part) (m : Mode) (c : Cursor) :
    ReadsAlike e e' extra part m c := by
  induction part, m, c using Part.descent with
  | conditional m c hoperators ih => exact readsAlike_conditional hoperators ih
  | operators level m c hlt hoperators ih => exact readsAlike_operators hlt hoperators ih
  | tightest level m c hle hunary => exact readsAlike_tightest hle hunary
  | more level left m c hoperators ih => exact readsAlike_more hoperators ih
  | unary m c hprimary ih => exact readsAlike_unary hprimary ih
  | primary m c hdefined ih => exact readsAlike_primary he hdefined ih
  | defined keyword m c => exact readsAlike_defined he

end Evaluator

theorem conditionTokens_of_forms {ts us : List Token} (h : us.map Token.form = ts.map Token.form) :
    (conditionTokens us).map Token.form = (conditionTokens ts).map Token.form := by
  have hfilter : ∀ ts : List Token, (conditionTokens ts).map Token.form =
      (ts.map Token.form).filter fun form => !form.1.isLayout && form.1 ≠ .endOfInput := by
    intro ts
    rw [List.filter_map]
    rfl
  rw [hfilter, h, hfilter]

theorem Setting.spelt_evaluator {s s' : Setting} {t u : Token} {ts us : List Token}
    (hdefined : s'.isDefined = s.isDefined) (h : (u :: us).map Token.form = (t :: ts).map Token.form) :
    (s.evaluator t ts).SpeltAs (s'.evaluator u us) where
  isDefined := hdefined
  last := by
    have hlast : ((u :: us).map Token.form).getLast (by simp) =
        ((t :: ts).map Token.form).getLast (by simp) := List.getLast_congr _ _ h
    rw [List.getLast_map, List.getLast_map] at hlast
    exact congrArg Prod.snd hlast

/-- What comes of a condition, without the place of a fault. -/
def Evaluation.outcome (x : Evaluation) : Except ConditionFault Value := x.result.mapError Located.cause

/-- Conditions that are spelled alike have the same outcome, unless the first one is refused for its nesting
and the second one may nest more. -/
theorem outcome_of_nesting {s s' : Setting} {extra : Nat} (hdefined : s'.isDefined = s.isDefined)
    (hlimit : s'.nestingLimit = s.nestingLimit + extra) {ts us : List Token}
    (h : us.map Token.form = ts.map Token.form) :
    (evaluate s' us).outcome = (evaluate s ts).outcome ∨
      0 < extra ∧ (evaluate s ts).outcome = .error .nestedTooDeeply := by
  have hforms := conditionTokens_of_forms h
  obtain ⟨hts, hus⟩ | ⟨t, rest, u, rest', hts, hus, -, -⟩ :=
    Cursor.SpeltAs.cases (c := { rest := conditionTokens ts }) (d := { rest := conditionTokens us }) hforms
  · rw [evaluate_of_nil hts, evaluate_of_nil hus]
    exact .inl rfl
  · simp only at hts hus
    rw [hts, hus] at hforms
    rw [evaluate_of_conditionTokens hts, evaluate_of_conditionTokens hus, hlimit]
    have halike : Evaluator.ReadsAlike (s.evaluator t rest) (s'.evaluator u rest') extra .conditional
        { nesting := s.nestingLimit } { rest := t :: rest } :=
      Evaluator.readsAlike (s.spelt_evaluator hdefined hforms) _ _ _
    have hread := halike _ { rest := u :: rest' } (.refl _) hforms
    simp only [Evaluator.read] at hread
    generalize (s.evaluator t rest).readConditional _ _ = read at hread ⊢
    cases read with
    | error failure =>
      obtain ⟨failure', heq, hcause⟩ | ⟨hextra, hcause⟩ := hread
      · rw [heq]
        exact .inl (congrArg Except.error hcause)
      · exact .inr ⟨hextra, congrArg Except.error hcause⟩
    | ok result =>
      obtain ⟨v, c⟩ := result
      obtain ⟨d, heq, hd⟩ := hread
      rw [heq]
      obtain ⟨hc, hd⟩ | ⟨w, ws, x, xs, hc, hd, -, htext⟩ := hd.cases
      · simp only [hc, hd]
        exact .inl rfl
      · simp only [hc, hd, htext]
        exact .inl rfl

theorem outcome_of_forms {s s' : Setting} (hdefined : s'.isDefined = s.isDefined)
    (hlimit : s'.nestingLimit = s.nestingLimit) {ts us : List Token}
    (h : us.map Token.form = ts.map Token.form) :
    (evaluate s' us).outcome = (evaluate s ts).outcome := by
  have hadded : s'.nestingLimit = s.nestingLimit + 0 := hlimit
  exact (outcome_of_nesting hdefined hadded h).resolve_right fun h => absurd h.1 (Nat.lt_irrefl 0)

end CPreprocessor
