import CPreprocessor.Proofs.Condition.Descent
import CPreprocessor.Proofs.Condition.IntegerConstant
import CPreprocessor.Proofs.Condition.Signedness

/-!
# Where the faults of conditions are

A fault in a condition is at one of its tokens or right behind the last one, or it is where the condition
as a whole is reported, and but for a number that is too long to be converted it is one of conditions
(`Setting.Faults`, `faults_evaluate`). So a property of places holds of it that does not depend on the
column and holds of these (`location_evaluate`).
-/

namespace CPreprocessor

/-- The faults that a condition of tokens may have. -/
inductive Setting.Faults (s : Setting) (tokens : List Token) : Located ConditionFault → Prop
  | whole {cause : ConditionFault} (own : cause.category.isOwn = true) : Faults s tokens ⟨cause, s.location⟩
  | token {t : Token} (mem : t ∈ tokens) {cause : ConditionFault} (own : cause.category.isOwn = true) :
    Faults s tokens ⟨cause, t.location⟩
  | behind {t : Token} (mem : t ∈ tokens) {cause : ConditionFault} (own : cause.category.isOwn = true) :
    Faults s tokens
      ⟨cause, some { t.location with column := t.location.column + t.text.length }⟩
  | number {t : Token} (mem : t ∈ tokens) (kind : t.kind = .number) {cause : ConditionFault}
    (h : Constant.integer t.text = .error cause) : Faults s tokens ⟨cause, t.location⟩

/-- Whether a reading leaves some of the tokens of a condition, or finds a fault that it may have. -/
def Setting.Stays (s : Setting) (tokens : List Token) : Except Failure (Value × Cursor) → Prop
  | .ok (_, c) => c.rest ⊆ tokens
  | .error failure => s.Faults tokens failure.fault

variable {s : Setting} {tokens : List Token}

namespace Setting.Stays

/-- What is done with what was read. -/
theorem bind {read : Except Failure (Value × Cursor)}
    {f : Value → Cursor → Except Failure (Value × Cursor)} :
    s.Stays tokens read →
    (∀ v c, read = .ok (v, c) → c.rest ⊆ tokens → s.Stays tokens (f v c)) →
    s.Stays tokens (match read with
      | .error failure => .error failure
      | .ok (v, c) => f v c) := by
  intro h hf
  cases read with
  | error failure => exact h
  | ok result => exact hf result.1 result.2 rfl h

theorem constant {x : Except ConditionFault Value} {location : Location} {c : Cursor} :
    (∀ cause, x = .error cause → s.Faults tokens ⟨cause, location⟩) → c.advance.rest ⊆ tokens →
    s.Stays tokens (match x with
      | .error cause => .error (c.fail cause location)
      | .ok value => .ok (value, c.advance)) := by
  intro h hc
  cases x with
  | error cause => exact h cause rfl
  | ok value => exact hc

end Setting.Stays

theorem Cursor.advance_subset {c : Cursor} (h : c.rest ⊆ tokens) : c.advance.rest ⊆ tokens :=
  fun _ ht => h (List.mem_of_mem_tail ht)

/-- A character constant is refused for its escapes alone. -/
theorem Constant.character_eq_error {text : String} {cause : ConditionFault}
    (h : character text = .error cause) : cause = .invalidEscape text := by
  unfold character at h
  simp only at h
  split at h
  · exact (Except.error.inj h).symm
  · split at h
    · cases h
    · split at h <;> cases h

theorem BinaryOperator.isOwn_of_apply {op : BinaryOperator} {a b : Value} {cause : ConditionFault}
    (h : op.apply a b = .error cause) : cause.category.isOwn = true := by
  rcases apply_eq_error h with ⟨remainder, rfl⟩ | ⟨count, rfl⟩
  · rfl
  · rfl

/-- Whether the place that a function of the evaluator is given is one of a token. -/
def Part.StandsIn (tokens : List Token) : Part → Prop
  | .defined keyword => ∃ t ∈ tokens, keyword = t.location
  | _ => True

namespace Evaluator

variable {e : Evaluator} {m : Mode} {c : Cursor}

/-- A reading by one function of some of the tokens of a condition. -/
def Stays (e : Evaluator) (tokens : List Token) (part : Part) (m : Mode) (c : Cursor) : Prop :=
  part.StandsIn tokens → c.rest ⊆ tokens → e.toSetting.Stays tokens (e.read part m c)

section
variable (hlast : e.last ∈ tokens)
include hlast

/-- The place of the next token, or of the end, is one that a fault may have. -/
theorem faults_place (hc : c.rest ⊆ tokens) {cause : ConditionFault}
    (own : cause.category.isOwn = true) : e.toSetting.Faults tokens ⟨cause, e.place c⟩ := by
  rw [place]
  cases hrest : c.rest with
  | nil => exact .behind hlast own
  | cons t ts => exact .token (hc (hrest ▸ List.mem_cons_self)) own

theorem stays_defined {keyword : Location} : e.Stays tokens (.defined keyword) m c := by
  rintro ⟨t, ht, rfl⟩ hc
  have hopened : (if c.at? "(" then c.advance else c).rest ⊆ tokens := by
    split
    · exact Cursor.advance_subset hc
    · exact hc
  simp only [read]
  rw [readDefined_eq]
  simp only
  generalize (if c.at? "(" then c.advance else c) = opened at hopened ⊢
  cases opened.rest.head?.filter Token.isIdentifier with
  | none => exact Setting.Faults.token ht rfl
  | some name =>
    simp only
    split
    · split
      · exact Cursor.advance_subset (Cursor.advance_subset hopened)
      · exact faults_place hlast (Cursor.advance_subset hopened) rfl
    · exact Cursor.advance_subset hopened

theorem stays_conditional (hoperators : e.Stays tokens (.operators 0) m c)
    (h : ∀ m' c', c'.rest.length < c.rest.length → e.Stays tokens .conditional m' c') :
    e.Stays tokens .conditional m c := by
  intro _ hc
  simp only [read]
  rw [readConditional_eq]
  refine (hoperators trivial hc).bind fun condition c₁ hread hc₁ => ?_
  have hlength₁ := length_of_readOperators hread
  split
  · rename_i hmark
    have hnext₁ := Cursor.length_advance_of_at? hmark
    split
    · exact Setting.Faults.whole rfl
    refine (h { m with live := m.live && condition.truthy, nesting := m.nesting - 1 } c₁.advance
      (by omega) trivial (Cursor.advance_subset hc₁)).bind fun whenTrue c₃ hread hc₃ => ?_
    have hlength₃ := length_of_readConditional hread
    split
    · rename_i hcolon
      have hnext₃ := Cursor.length_advance_of_at? hcolon
      exact (h { m with live := m.live && !condition.truthy, nesting := m.nesting - 1 } c₃.advance
        (by omega) trivial (Cursor.advance_subset hc₃)).bind fun whenFalse c₅ _ hc₅ => hc₅
    · exact faults_place hlast hc₃ rfl
  · exact hc₁

omit hlast

theorem stays_operators {level : Nat} (hlt : level < BinaryOperator.levels)
    (hoperators : e.Stays tokens (.operators (level + 1)) m c)
    (h : ∀ left m' c', c'.rest.length < c.rest.length → e.Stays tokens (.more level left) m' c') :
    e.Stays tokens (.operators level) m c := by
  intro _ hc
  simp only [read]
  rw [readOperators_eq, if_pos hlt]
  exact (hoperators trivial hc).bind fun left c₁ hread hc₁ =>
    h left m c₁ (length_of_readOperators hread) trivial hc₁

theorem stays_tightest {level : Nat} (hle : ¬ level < BinaryOperator.levels)
    (hunary : e.Stays tokens .unary m c) : e.Stays tokens (.operators level) m c := by
  intro _ hc
  simp only [read]
  rw [readOperators_eq, if_neg hle]
  exact hunary trivial hc

theorem stays_more {level : Nat} {left : Value}
    (hoperators : ∀ m' c', c'.rest.length < c.rest.length →
      e.Stays tokens (.operators (level + 1)) m' c')
    (h : ∀ left' m' c', c'.rest.length < c.rest.length → e.Stays tokens (.more level left') m' c') :
    e.Stays tokens (.more level left) m c := by
  intro _ hc
  simp only [read]
  rw [readMore_eq]
  cases hop : c.operator? level with
  | none => exact hc
  | some found =>
    obtain ⟨op, place⟩ := found
    obtain ⟨t, hrest, -, -, rfl⟩ := Cursor.rest_of_operator? hop
    have hlength := Cursor.length_advance_of_operator? hop
    refine (hoperators { m with live := m.live && op.evaluatesRight left } c.advance hlength trivial
      (Cursor.advance_subset hc)).bind fun right c₂ hread hc₂ => ?_
    have hlength₂ := length_of_readOperators hread
    cases hoperation : (if m.live then op.apply left right else .ok (op.skip left right)) with
    | error cause =>
      have happly : op.apply left right = .error cause := by
        cases hlive : m.live with
        | false =>
          rw [hlive] at hoperation
          cases hoperation
        | true => rwa [hlive, if_pos rfl] at hoperation
      exact Setting.Faults.token (hc (hrest ▸ List.mem_cons_self)) (BinaryOperator.isOwn_of_apply happly)
    | ok value => exact h value m c₂ (by omega) trivial hc₂

theorem stays_unary (hprimary : e.Stays tokens .primary m c)
    (h : ∀ m' c', c'.rest.length < c.rest.length → e.Stays tokens .unary m' c') :
    e.Stays tokens .unary m c := by
  intro _ hc
  simp only [read]
  rw [readUnary_eq]
  cases hop : c.unary? with
  | none => exact hprimary trivial hc
  | some op =>
    simp only
    split
    · exact Setting.Faults.whole rfl
    exact (h { m with nesting := m.nesting - 1 } c.advance (Cursor.length_advance_of_unary? hop) trivial
      (Cursor.advance_subset hc)).bind fun value c₂ _ hc₂ => hc₂

include hlast

theorem stays_primary (hdefined : ∀ keyword m' c', e.Stays tokens (.defined keyword) m' c')
    (h : ∀ m' c', c'.rest.length < c.rest.length → e.Stays tokens .conditional m' c') :
    e.Stays tokens .primary m c := by
  intro _ hc
  have hadvance := Cursor.advance_subset hc
  simp only [read]
  cases hrest : c.rest with
  | nil =>
    rw [readPrimary_nil e m c hrest]
    exact Setting.Faults.behind hlast rfl
  | cons t ts =>
    have ht : t ∈ tokens := hc (hrest ▸ List.mem_cons_self)
    rw [readPrimary_eq e m c hrest]
    split
    · rename_i kind
      exact .constant (fun cause hcause => .number ht kind hcause) hadvance
    · refine .constant (fun cause hcause => ?_) hadvance
      rw [Constant.character_eq_error hcause]
      exact .token ht rfl
    · split
      · exact hdefined t.location m c.advance ⟨t, ht, rfl⟩ hadvance
      · split
        · exact hadvance
        · exact hadvance
    · exact Setting.Faults.token ht rfl
    · split
      · split
        · exact Setting.Faults.token ht rfl
        refine (h { m with parentheses := m.parentheses + 1 } c.advance
          (Cursor.length_advance_of_cons hrest) trivial hadvance).bind fun value c₂ _ hc₂ => ?_
        split
        · exact Cursor.advance_subset hc₂
        · exact faults_place hlast hc₂ rfl
      · exact Setting.Faults.token ht rfl

/-- Each function of the evaluator leaves some of the tokens of the condition, or finds a fault that it may
have, if it is given some of them. -/
theorem stays_read (part : Part) (m : Mode) (c : Cursor) : e.Stays tokens part m c := by
  induction part, m, c using Part.descent with
  | conditional m c hoperators ih => exact stays_conditional hlast hoperators ih
  | operators level m c hlt hoperators ih => exact stays_operators hlt hoperators ih
  | tightest level m c hle hunary => exact stays_tightest hle hunary
  | more level left m c hoperators ih => exact stays_more hoperators ih
  | unary m c hprimary ih => exact stays_unary hprimary ih
  | primary m c hdefined ih => exact stays_primary hlast hdefined ih
  | defined keyword m c => exact stays_defined hlast

end

end Evaluator

variable {fault : Located ConditionFault}

theorem faults_evaluate (h : (evaluate s tokens).result = .error fault) : s.Faults tokens fault := by
  rw [evaluate] at h
  split at h
  · cases h
    exact .whole rfl
  · rename_i t rest hcons
    have hrest : t :: rest ⊆ tokens := hcons ▸ (List.filter_sublist ..).subset
    let e : Evaluator := { s with last := (t :: rest).getLast (by simp) }
    have hlast : e.last ∈ tokens := hrest (List.getLast_mem _)
    have hstays := Evaluator.stays_read hlast .conditional { nesting := s.nestingLimit }
      { rest := t :: rest } trivial hrest
    simp only [Evaluator.read, Evaluator.readConditional] at hstays
    simp only at h
    split at h
    · rename_i failure hfailure
      rw [hfailure] at hstays
      cases h
      exact hstays
    · rename_i value c _ hvalue
      rw [hvalue] at hstays
      split at h
      · cases h
      · rename_i u us hnext
        cases h
        exact .token (hstays (hnext ▸ List.mem_cons_self)) rfl

/-- The fault of a condition has a property of places that does not depend on the column, if the tokens of
the condition have it and the place where it is reported. -/
theorem location_evaluate {P : Location → Prop}
    (hcolumn : ∀ location column, P location → P { location with column })
    (hlocation : ∀ location ∈ s.location, P location) (htokens : ∀ t ∈ tokens, P t.location)
    (h : (evaluate s tokens).result = .error fault) : ∀ location ∈ fault.location, P location := by
  cases faults_evaluate h with
  | whole own => exact hlocation
  | token mem own =>
    rintro _ ⟨⟩
    exact htokens _ mem
  | behind mem own =>
    rintro _ ⟨⟩
    exact hcolumn _ _ (htokens _ mem)
  | number mem kind h =>
    rintro _ ⟨⟩
    exact htokens _ mem

theorem ConditionFault.expression_mem_ancestry {f : ConditionFault} (h : f.category.isOwn = true) :
    .expression ∈ f.category.ancestry := by
  cases f with
  | tooManyDigits count => cases h
  | _ => simp [category, Category.ancestry, Category.parent?]

/-- A fault of a condition is one of conditions, or there is a number in it that is too long to be
converted. -/
theorem Setting.Faults.expression_or_long (h : s.Faults tokens fault) :
    .expression ∈ fault.cause.category.ancestry ∨
      ∃ t ∈ tokens, t.kind = .number ∧ ∃ count, LongDecimal (Constant.chomp t.text.toList) count ∧
        fault = ⟨.tooManyDigits count, t.location⟩ := by
  cases h with
  | whole own => exact .inl (ConditionFault.expression_mem_ancestry own)
  | token mem own => exact .inl (ConditionFault.expression_mem_ancestry own)
  | behind mem own => exact .inl (ConditionFault.expression_mem_ancestry own)
  | @number t mem kind cause h =>
    rcases Constant.category_of_integer h with hcategory | ⟨count, rfl⟩
    · refine .inl ?_
      rw [hcategory]
      decide
    · exact .inr ⟨t, mem, kind, count, Constant.integer_eq_tooManyDigits_iff.mp h, rfl⟩

end CPreprocessor
