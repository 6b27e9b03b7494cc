import CPreprocessor.Proofs.Condition.Descent
import CPreprocessor.Proofs.Except

/-!
# The flag of an evaluator

An evaluator may keep in its state what the descent hands down: whether what it reads is evaluated, and
how many parentheses are open. Then a call that changes them must change them back. `Evaluator.visit`
is the descent of an evaluator with such a state. Where it returns, its flag and its count are as they
were when it was called, and it reads what the descent reads (`Evaluator.visit_eq`).
-/

namespace CPreprocessor

/-- Whether an operator may leave its right operand unevaluated. -/
def BinaryOperator.shortCircuits : BinaryOperator → Bool
  | or | and => true
  | _ => false

theorem BinaryOperator.evaluatesRight_of_not_shortCircuits {op : BinaryOperator} {left : Value}
    (h : ¬ op.shortCircuits = true) : op.evaluatesRight left = true := by
  cases op <;> first | rfl | exact absurd rfl h

/-- The state of an evaluator while it reads. -/
structure Session where
  cursor : Cursor
  /-- whether what is read is evaluated -/
  live : Bool := true
  /-- how many parentheses are open -/
  parentheses : Nat := 0

namespace Session

def advance (s : Session) : Session := { s with cursor := s.cursor.advance }

/-- The state for the right operand of an operator. -/
def enter (s : Session) (op : BinaryOperator) (left : Value) : Session :=
  if op.shortCircuits then { s with live := s.live && op.evaluatesRight left } else s

/-- The state behind the right operand of an operator, where the flag was `live` before it. -/
def leave (s : Session) (op : BinaryOperator) (live : Bool) : Session :=
  if op.shortCircuits then { s with live := live } else s

def raise {α : Type} (s : Session) (cause : ConditionFault) (location : Option Location) :
    Except (Stop Failure) α :=
  .error (.raised (s.cursor.fail cause location))

/-- Returns the value of the next token. -/
def literal (s : Session) (t : Token) (value : Except ConditionFault Value) :
    Except (Stop Failure) (Value × Session) :=
  match value with
  | .error cause => s.raise cause t.location
  | .ok value => .ok (value, s.advance)

theorem enter_mk (c : Cursor) (live : Bool) (parentheses : Nat) (op : BinaryOperator) (left : Value) :
    enter ⟨c, live, parentheses⟩ op left = ⟨c, live && op.evaluatesRight left, parentheses⟩ := by
  rw [enter]
  split
  · rfl
  · rename_i h
    rw [BinaryOperator.evaluatesRight_of_not_shortCircuits h, Bool.and_true]

theorem leave_mk (c : Cursor) (live : Bool) (parentheses : Nat) (op : BinaryOperator) (left : Value) :
    leave ⟨c, live && op.evaluatesRight left, parentheses⟩ op live = ⟨c, live, parentheses⟩ := by
  rw [leave]
  split
  · rfl
  · rename_i h
    rw [BinaryOperator.evaluatesRight_of_not_shortCircuits h, Bool.and_true]

end Session

namespace Evaluator

variable (e : Evaluator)

/-- What a function of the evaluator reads in a state, with calls that may be nested `depth` deep. -/
def visit : Nat → Part → Nat → Session → Except (Stop Failure) (Value × Session)
  | 0, _, _, _ => .error .outOfRange
  | depth + 1, .conditional, nesting, s => do
    let (condition, s₁) ← visit depth (.operators 0) nesting s
    if s₁.cursor.at? "?" then
      if nesting = 0 then s₁.raise .nestedTooDeeply e.location
      else
        let live := s₁.live
        let (whenTrue, s₃) ← visit depth .conditional (nesting - 1)
          { s₁.advance with live := live && condition.truthy }
        if s₃.cursor.at? ":" then
          let (whenFalse, s₅) ← visit depth .conditional (nesting - 1)
            { s₃.advance with live := live && !condition.truthy }
          let chosen := if condition.truthy then whenTrue else whenFalse
          .ok (.wrap chosen.value (whenTrue.unsigned || whenFalse.unsigned), { s₅ with live := live })
        else s₃.raise .expectedColon (e.place s₃.cursor)
    else .ok (condition, s₁)
  | depth + 1, .operators level, nesting, s =>
    if level < BinaryOperator.levels then do
      let (left, s₁) ← visit depth (.operators (level + 1)) nesting s
      visit depth (.more level left) nesting s₁
    else visit depth .unary nesting s
  | depth + 1, .more level left, nesting, s =>
    match s.cursor.operator? level with
    | none => .ok (left, s)
    | some (op, place) => do
      let live := s.live
      let (right, s₂) ← visit depth (.operators (level + 1)) nesting (s.advance.enter op left)
      let s₂ := s₂.leave op live
      match (if s₂.live then op.apply left right else .ok (op.skip left right)) with
      | .error cause => s₂.raise cause place
      | .ok value => visit depth (.more level value) nesting s₂
  | depth + 1, .unary, nesting, s =>
    match s.cursor.unary? with
    | some op =>
      if nesting = 0 then s.raise .nestedTooDeeply e.location
      else do
        let (value, s₂) ← visit depth .unary (nesting - 1) s.advance
        .ok (op.apply value, s₂)
    | none => visit depth .primary nesting s
  | depth + 1, .primary, nesting, s =>
    match s.cursor.rest with
    | [] => s.raise (.missingOperand e.last.text) e.endPlace
    | t :: _ =>
      match t.kind with
      | .number => s.literal t (Constant.integer t.text)
      | .character => s.literal t (Constant.character t.text)
      | .identifier =>
        if t.text = "defined" then visit depth (.defined t.location) nesting s.advance
        else if s.live then
          let names := t :: s.cursor.undefined
          .ok (.ofBool false, { s with cursor := { s.cursor.advance with undefined := names } })
        else .ok (.ofBool false, s.advance)
      | .string => s.raise .stringLiteral t.location
      | _ =>
        if t.isPunctuator "(" then
          if ConditionFault.parenthesisLimit ≤ s.parentheses then
            s.raise .tooManyParentheses t.location
          else do
            let (value, s₂) ← visit depth .conditional nesting
              { s.advance with parentheses := s.parentheses + 1 }
            let s₂ := { s₂ with parentheses := s₂.parentheses - 1 }
            if s₂.cursor.at? ")" then .ok (value, s₂.advance)
            else s₂.raise .expectedClose (e.place s₂.cursor)
        else s.raise (.unexpected t.text) t.location
  | _ + 1, .defined keyword, _, s =>
    let opened := if s.cursor.at? "(" then s.advance else s
    match opened.cursor.rest.head?.filter Token.isIdentifier with
    | none => s.raise .definedWithoutName keyword
    | some name =>
      let value := Value.ofBool (e.isDefined name.text)
      if s.cursor.at? "(" then
        if opened.advance.cursor.at? ")" then .ok (value, opened.advance.advance)
        else s.raise .definedWithoutClose (e.place opened.advance.cursor)
      else .ok (value, opened.advance)

end Evaluator

/-- How deep the calls of a function are nested on the same tokens. -/
def Part.height : Part → Nat
  | .conditional => BinaryOperator.levels + 4
  | .operators level => BinaryOperator.levels - level + 3
  | .more _ _ => 1
  | .unary => 2
  | .primary => 1
  | .defined _ => 1

/-- What the descent gave, in a state with the flag and the count that it was called with. -/
def Mode.settle (m : Mode) (result : Except Failure (Value × Cursor)) :
    Except (Stop Failure) (Value × Session) :=
  raising (result.map fun (v, c) => (v, ⟨c, m.live, m.parentheses⟩))

/-- What is done with what was read. -/
theorem Mode.settle_bind {m m' : Mode} {result : Except Failure (Value × Cursor)}
    {f : Value × Session → Except (Stop Failure) (Value × Session)}
    {g : Value → Cursor → Except Failure (Value × Cursor)} :
    (∀ v c, result = .ok (v, c) → f (v, ⟨c, m.live, m.parentheses⟩) = m'.settle (g v c)) →
    m.settle result >>= f =
      m'.settle (match result with
        | .error failure => .error failure
        | .ok (v, c) => g v c) := by
  intro h
  cases result with
  | error failure => rfl
  | ok read => exact h read.1 read.2 rfl

namespace Evaluator

/-- Whether a function, with its calls nested deep enough, reads in a state what the descent reads, and
leaves the flag and the count of the state as they were. -/
def Visits (e : Evaluator) (part : Part) (m : Mode) (c : Cursor) : Prop :=
  ∀ depth, 16 * c.rest.length + part.height ≤ depth →
    e.visit depth part m.nesting ⟨c, m.live, m.parentheses⟩ = m.settle (e.read part m c)

variable {e : Evaluator} {m : Mode} {c : Cursor}

theorem Visits.of_succ {part : Part}
    (h : ∀ depth, 16 * c.rest.length + part.height ≤ depth + 1 →
      e.visit (depth + 1) part m.nesting ⟨c, m.live, m.parentheses⟩ = m.settle (e.read part m c)) :
    e.Visits part m c := by
  rintro (_ | depth) hdepth
  · have hheight : 0 < part.height := by cases part <;> simp [Part.height]
    omega
  · exact h depth hdepth

-- Every case below opens both descents at its function.
attribute [local simp] visit read

theorem visits_conditional (hoperators : e.Visits (.operators 0) m c)
    (h : ∀ m' c', c'.rest.length < c.rest.length → e.Visits .conditional m' c') :
    e.Visits .conditional m c := by
  refine .of_succ fun depth hdepth => ?_
  rw [Part.height] at hdepth
  simp only [visit, read]
  rw [readConditional_eq, hoperators depth (by rw [Part.height]; omega)]
  refine Mode.settle_bind fun condition c₁ hread => ?_
  have hlength₁ := length_of_readOperators hread
  dsimp only
  split
  · rename_i hmark
    have hnext₁ := Cursor.length_advance_of_at? hmark
    split
    · rfl
    have htrue := h { m with live := m.live && condition.truthy, nesting := m.nesting - 1 }
      c₁.advance (by omega) depth (by rw [Part.height]; omega)
    dsimp only [Session.advance] at htrue ⊢
    rw [htrue]
    refine Mode.settle_bind fun whenTrue c₃ hread => ?_
    have hlength₃ := length_of_readConditional hread
    dsimp only
    split
    · rename_i hcolon
      have hnext₃ := Cursor.length_advance_of_at? hcolon
      have hfalse := h { m with live := m.live && !condition.truthy, nesting := m.nesting - 1 }
        c₃.advance (by omega) depth (by rw [Part.height]; omega)
      dsimp only at hfalse
      rw [hfalse]
      exact Mode.settle_bind fun whenFalse c₅ _ => rfl
    · rfl
  · rfl

theorem visits_operators {level : Nat} (hlt : level < BinaryOperator.levels)
    (hoperators : e.Visits (.operators (level + 1)) m c)
    (h : ∀ left m' c', c'.rest.length < c.rest.length → e.Visits (.more level left) m' c') :
    e.Visits (.operators level) m c := by
  refine .of_succ fun depth hdepth => ?_
  rw [Part.height] at hdepth
  simp only [visit, read]
  rw [readOperators_eq, if_pos hlt, if_pos hlt, hoperators depth (by rw [Part.height]; omega)]
  refine Mode.settle_bind fun left c₁ hread => ?_
  have hlength := length_of_readOperators hread
  exact h left m c₁ hlength depth (by rw [Part.height]; omega)

theorem visits_tightest {level : Nat} (hle : ¬ level < BinaryOperator.levels)
    (hunary : e.Visits .unary m c) : e.Visits (.operators level) m c := by
  refine .of_succ fun depth hdepth => ?_
  rw [Part.height] at hdepth
  simp only [visit, read]
  rw [readOperators_eq, if_neg hle, if_neg hle]
  exact hunary depth (by rw [Part.height]; omega)

theorem visits_more {level : Nat} {left : Value}
    (hoperators : ∀ m' c', c'.rest.length < c.rest.length → e.Visits (.operators (level + 1)) m' c')
    (h : ∀ left' m' c', c'.rest.length < c.rest.length → e.Visits (.more level left') m' c') :
    e.Visits (.more level left) m c := by
  refine .of_succ fun depth hdepth => ?_
  rw [Part.height] at hdepth
  simp only [visit, read]
  rw [readMore_eq]
  cases hop : c.operator? level with
  | none => rfl
  | some found =>
    obtain ⟨op, place⟩ := found
    have hlength := Cursor.length_advance_of_operator? hop
    have hright := hoperators { m with live := m.live && op.evaluatesRight left } c.advance hlength
      depth (by rw [Part.height, BinaryOperator.levels]; omega)
    dsimp only [Session.advance] at hright ⊢
    rw [Session.enter_mk, hright]
    refine Mode.settle_bind fun right c₂ hread => ?_
    have hlength₂ := length_of_readOperators hread
    dsimp only
    rw [Session.leave_mk]
    dsimp only
    cases (if m.live then op.apply left right else .ok (op.skip left right)) with
    | error cause => rfl
    | ok value => exact h value m c₂ (by omega) depth (by rw [Part.height]; omega)

theorem visits_unary (hprimary : e.Visits .primary m c)
    (h : ∀ m' c', c'.rest.length < c.rest.length → e.Visits .unary m' c') : e.Visits .unary m c := by
  refine .of_succ fun depth hdepth => ?_
  rw [Part.height] at hdepth
  simp only [visit, read]
  rw [readUnary_eq]
  cases hop : c.unary? with
  | none => exact hprimary depth (by rw [Part.height]; omega)
  | some op =>
    have hlength := Cursor.length_advance_of_unary? hop
    dsimp only
    split
    · rfl
    have hoperand := h { m with nesting := m.nesting - 1 } c.advance hlength depth
      (by rw [Part.height]; omega)
    dsimp only [Session.advance] at hoperand ⊢
    rw [hoperand]
    exact Mode.settle_bind fun value c₂ _ => rfl

theorem visits_primary (hdefined : ∀ keyword m' c', e.Visits (.defined keyword) m' c')
    (h : ∀ m' c', c'.rest.length < c.rest.length → e.Visits .conditional m' c') :
    e.Visits .primary m c := by
  refine .of_succ fun depth hdepth => ?_
  rw [Part.height] at hdepth
  simp only [visit, read]
  cases hrest : c.rest with
  | nil =>
    rw [readPrimary_nil e m c hrest]
    rfl
  | cons t ts =>
    have hlength := Cursor.length_advance_of_cons hrest
    rw [readPrimary_eq e m c hrest]
    dsimp only
    cases t.kind with
    | number => cases Constant.integer t.text <;> rfl
    | character => cases Constant.character t.text <;> rfl
    | identifier =>
      dsimp only
      split
      · exact hdefined t.location m c.advance depth (by rw [Part.height]; omega)
      · split <;> rfl
    | string => rfl
    | _ =>
      dsimp only
      split
      · split
        · rfl
        have hinner := h { m with parentheses := m.parentheses + 1 } c.advance hlength depth
          (by rw [Part.height, BinaryOperator.levels]; omega)
        dsimp only [Session.advance] at hinner ⊢
        rw [hinner]
        refine Mode.settle_bind fun value c₂ _ => ?_
        dsimp only [Nat.add_sub_cancel]
        split <;> rfl
      · rfl

theorem visits_defined {keyword : Location} : e.Visits (.defined keyword) m c := by
  refine .of_succ fun depth _ => ?_
  simp only [visit, read]
  rw [readDefined_eq]
  have hopened : (if c.at? "(" then Session.advance ⟨c, m.live, m.parentheses⟩
      else ⟨c, m.live, m.parentheses⟩) =
        ⟨if c.at? "(" then c.advance else c, m.live, m.parentheses⟩ := by
    split <;> rfl
  dsimp only
  rw [hopened]
  dsimp only [Session.advance]
  cases (if c.at? "(" then c.advance else c).rest.head?.filter Token.isIdentifier with
  | none => rfl
  | some name =>
    dsimp only
    split
    · split <;> rfl
    · rfl

/-- Each function reads in a state what it reads on the descent, and leaves the flag and the count of
the state as they were. -/
theorem visit_eq (e : Evaluator) (part : Part) (m : Mode) (c : Cursor) : e.Visits part m c := by
  induction part, m, c using Part.descent with
  | conditional m c hoperators ih => exact visits_conditional hoperators ih
  | operators level m c hlt hoperators ih => exact visits_operators hlt hoperators ih
  | tightest level m c hle hunary => exact visits_tightest hle hunary
  | more level left m c hoperators ih => exact visits_more hoperators ih
  | unary m c hprimary ih => exact visits_unary hprimary ih
  | primary m c hdefined ih => exact visits_primary hdefined ih
  | defined keyword m c => exact visits_defined

end Evaluator

end CPreprocessor
