import CPreprocessor.Proofs.Condition.Grammar
import CPreprocessor.Proofs.Except

/-!
# The types of expressions

The type of a value is known before anything is evaluated (`Expression.unsigned_of_eval`), so that a
skipped operand still has its say in it.
-/

namespace CPreprocessor

namespace BinaryOperator

theorem unsigned_of_apply {op : BinaryOperator} {a b v : Value} {place : Location}
    {l r : Expression} (h : op.apply a b = .ok v) (ha : a.unsigned = l.unsigned)
    (hb : b.unsigned = r.unsigned) : v.unsigned = (Expression.binary op place l r).unsigned := by
  unfold apply at h
  cases op with
  | shiftLeft | shiftRight =>
    simp only at h
    split at h
    · cases h
    · cases h
      simp only [shift, Expression.unsigned, ← ha]
      split <;> rfl
  | div | mod =>
    simp only at h
    split at h
    · cases h
    · cases h
      simp [Expression.unsigned, Value.wrap, ha, hb]
  | _ =>
    cases h
    simp [Expression.unsigned, Value.wrap, Value.ofBool, ha, hb]

theorem unsigned_skip {op : BinaryOperator} {a b : Value} {place : Location} {l r : Expression}
    (ha : a.unsigned = l.unsigned) (hb : b.unsigned = r.unsigned) :
    (op.skip a b).unsigned = (Expression.binary op place l r).unsigned := by
  cases op <;> simp [skip, Expression.unsigned, Value.ofBool, ha, hb]

/-- A left operand that decides a logical operator gives its value. -/
theorem apply_of_not_evaluatesRight {op : BinaryOperator} {a : Value} (b : Value)
    (h : op.evaluatesRight a = false) : op.apply a b = .ok (.ofBool a.truthy) := by
  cases op with
  | or => simp_all [evaluatesRight, apply]
  | and => simp_all [evaluatesRight, apply]
  | _ => cases h

theorem unsigned_of_not_evaluatesRight {op : BinaryOperator} {a : Value} {place : Location}
    {l r : Expression} (h : op.evaluatesRight a = false) :
    (Expression.binary op place l r).unsigned = false := by
  cases op with
  | or => rfl
  | and => rfl
  | _ => cases h

end BinaryOperator

theorem UnaryOperator.unsigned_apply {op : UnaryOperator} {v : Value} {x : Expression}
    (h : v.unsigned = x.unsigned) : (op.apply v).unsigned = (Expression.unary op x).unsigned := by
  cases op <;> simp [apply, Expression.unsigned, Value.wrap, Value.ofBool, h]

/-- The type of an expression is that of its value. -/
theorem Expression.unsigned_of_eval {isDefined : String → Bool} {x : Expression} {v : Value}
    (h : x.eval isDefined = .ok v) : v.unsigned = x.unsigned := by
  induction x generalizing v with
  | constant w =>
    cases h
    rfl
  | name t =>
    cases h
    rfl
  | defined n =>
    cases h
    rfl
  | unary op x ih =>
    obtain ⟨w, hw, rfl⟩ := map_eq_ok_iff.mp h
    exact UnaryOperator.unsigned_apply (ih hw)
  | binary op place l r ihl ihr =>
    rw [eval] at h
    split at h
    · cases h
    rename_i a ha
    split at h
    · split at h
      · cases h
      rename_i b hb
      cases hab : op.apply a b with
      | error cause =>
        rw [hab] at h
        cases h
      | ok w =>
        rw [hab] at h
        cases h
        exact BinaryOperator.unsigned_of_apply hab (ihl ha) (ihr hb)
    · rename_i hright
      cases h
      exact (BinaryOperator.unsigned_of_not_evaluatesRight (by simpa using hright)).symm
  | choice c t f =>
    rw [eval] at h
    split at h
    · cases h
    · obtain ⟨w, -, rfl⟩ := map_eq_ok_iff.mp h
      rfl
  | group x ih => exact ih h

/-- An operation fails only by its zero divisor or its shift count. -/
theorem BinaryOperator.apply_eq_error {op : BinaryOperator} {a b : Value} {cause : ConditionFault}
    (h : op.apply a b = .error cause) :
    (∃ remainder, cause = .divisionByZero remainder) ∨ ∃ count, cause = .shiftCount count := by
  unfold apply at h
  cases op with
  | shiftLeft | shiftRight =>
    simp only at h
    split at h
    · cases h
      exact .inr ⟨_, rfl⟩
    · cases h
  | div | mod =>
    simp only at h
    split at h
    · cases h
      exact .inl ⟨_, rfl⟩
    · cases h
  | _ => cases h

/-- Nothing but a zero divisor or a shift count keeps an expression from having a value. -/
theorem Expression.eval_eq_error {isDefined : String → Bool} {x : Expression}
    {fault : Located ConditionFault} (h : x.eval isDefined = .error fault) :
    (∃ remainder, fault.cause = .divisionByZero remainder) ∨
      ∃ count, fault.cause = .shiftCount count := by
  induction x with
  | constant w => cases h
  | name t => cases h
  | defined n => cases h
  | unary op x ih => exact ih (map_eq_error_iff.mp h)
  | binary op place l r ihl ihr =>
    rw [eval] at h
    split at h
    · rename_i hl
      cases h
      exact ihl hl
    split at h
    · split at h
      · rename_i hr
        cases h
        exact ihr hr
      · rename_i a _ _ _ b _
        cases hab : op.apply a b with
        | error cause =>
          rw [hab] at h
          cases h
          exact BinaryOperator.apply_eq_error hab
        | ok w =>
          rw [hab] at h
          cases h
    · cases h
  | choice c t f ihc iht ihf =>
    rw [eval] at h
    split at h
    · rename_i hc
      cases h
      exact ihc hc
    · have h := map_eq_error_iff.mp h
      split at h
      · exact iht h
      · exact ihf h
  | group x ih => exact ih h

end CPreprocessor
