import CPreprocessor.Condition.Constant
import CPreprocessor.Condition.Value
import CPreprocessor.Token

/-!
The evaluation of conditions. A condition is evaluated while it is read, so whichever of a syntax
error and an arithmetic error comes first is the one reported. Operands that are not selected are
read all the same, for their form and their type, but nothing in them is evaluated.
-/

namespace CPreprocessor

/-- How deep operators may be nested in a condition where nothing else is known of the stack. -/
def usualNestingLimit : Nat := 1000

/-- What the evaluation of a condition depends on. -/
structure Setting where
  /-- whether a name is defined, for `defined` operators that come out of macros -/
  isDefined : String → Bool := fun _ => false
  /-- where the condition as a whole is reported -/
  location : Option Location := none
  /-- how deep unary operators and conditional operators may be nested. No caller chooses it: it stands
  for the stack that the evaluator runs on, and a statement about conditions is one for every limit. It
  is a rough measure of that stack, which parentheses and the depth of the caller use up as well. -/
  nestingLimit : Nat := usualNestingLimit

/-- The evaluator of one condition, which ends with the token `last`. -/
structure Evaluator extends Setting where
  last : Token

namespace Evaluator

/-- The place of the end of the condition, after its last token. -/
def endPlace (e : Evaluator) : Location :=
  { e.last.location with column := e.last.location.column + e.last.text.length }

end Evaluator

/-- The tokens still to be read, and the undefined names that were evaluated so far, last first. -/
structure Cursor where
  rest : List Token
  undefined : List Token := []

/-- How an operand is read. -/
structure Mode where
  /-- whether the operand is evaluated -/
  live : Bool := true
  /-- how many parentheses are open -/
  parentheses : Nat := 0
  /-- how many more operators may be nested -/
  nesting : Nat

/-- A fault, and the undefined names that were evaluated before it, last first. -/
structure Failure where
  fault : Located ConditionFault
  undefined : List Token

/-- An operand that was read from `start`: its value and what follows it. -/
structure Operand (start : Cursor) where
  value : Value
  next : Cursor
  shorter : next.rest.length < start.rest.length

/-- An operand that may have been read before `start`. -/
structure Continuation (start : Cursor) where
  value : Value
  next : Cursor
  notLonger : next.rest.length ≤ start.rest.length

namespace Cursor

def fail (c : Cursor) (cause : ConditionFault) (location : Option Location) : Failure :=
  ⟨⟨cause, location⟩, c.undefined⟩

/-- Leaves out the first token. -/
def advance (c : Cursor) : Cursor := { c with rest := c.rest.tail }

/-- Whether the next token is the punctuator spelled `text`. -/
def at? (c : Cursor) (text : String) : Bool := c.rest.head?.any (·.isPunctuator text)

/-- The binary operator of a level that comes next, with its place. -/
def operator? (c : Cursor) (level : Nat) : Option (BinaryOperator × Location) :=
  match c.rest with
  | [] => none
  | t :: _ =>
    if t.kind = .punctuator then
      ((BinaryOperator.ofText? t.text).filter (·.level = level)).map fun op => (op, t.location)
    else none

/-- The unary operator that comes next. -/
def unary? (c : Cursor) : Option UnaryOperator :=
  match c.rest with
  | [] => none
  | t :: _ => if t.kind = .punctuator then UnaryOperator.ofText? t.text else none

theorem length_advance_le (c : Cursor) : c.advance.rest.length ≤ c.rest.length := by
  simp [advance]

theorem length_advance_of_at? {c : Cursor} {text : String} (h : c.at? text = true) :
    c.advance.rest.length < c.rest.length := by
  cases hc : c.rest with
  | nil => simp [at?, hc] at h
  | cons t ts => simp [advance, hc]

theorem length_advance_of_cons {c : Cursor} {t : Token} {ts : List Token} (h : c.rest = t :: ts) :
    c.advance.rest.length < c.rest.length := by
  simp [advance, h]

theorem length_advance_of_operator? {c : Cursor} {level : Nat} {found : BinaryOperator × Location}
    (h : c.operator? level = some found) : c.advance.rest.length < c.rest.length := by
  cases hc : c.rest with
  | nil => simp [operator?, hc] at h
  | cons t ts => simp [advance, hc]

theorem length_advance_of_unary? {c : Cursor} {op : UnaryOperator} (h : c.unary? = some op) :
    c.advance.rest.length < c.rest.length := by
  cases hc : c.rest with
  | nil => simp [unary?, hc] at h
  | cons t ts => simp [advance, hc]

end Cursor

namespace Evaluator

/-- The place of the next token, or of the end. -/
def place (e : Evaluator) (c : Cursor) : Location :=
  (c.rest.head?.map Token.location).getD e.endPlace

/-- The value of an application of `defined` that was left to the evaluator, after the operator at
`keyword`. -/
def applyDefined (e : Evaluator) (keyword : Location) (c : Cursor) :
    Except Failure (Continuation c) :=
  let opened := if c.at? "(" then c.advance else c
  have hopened : opened.rest.length ≤ c.rest.length := by
    show (if c.at? "(" then c.advance else c).rest.length ≤ _
    split
    · exact c.length_advance_le
    · exact Nat.le_refl _
  match opened.rest.head?.filter Token.isIdentifier with
  | none => .error (c.fail .definedWithoutName keyword)
  | some name =>
    let value := Value.ofBool (e.isDefined name.text)
    have h := Nat.le_trans opened.length_advance_le hopened
    if c.at? "(" then
      if opened.advance.at? ")" then
        .ok ⟨value, opened.advance.advance, Nat.le_trans opened.advance.length_advance_le h⟩
      else .error (c.fail .definedWithoutClose (e.place opened.advance))
    else .ok ⟨value, opened.advance, h⟩

mutual

/-- Reads a condition, down to the conditional operator. -/
def conditional (e : Evaluator) (m : Mode) (c : Cursor) : Except Failure (Operand c) :=
  match e.operators 0 m c with
  | .error failure => .error failure
  | .ok ⟨condition, c₁, h₁⟩ =>
    if h₂ : c₁.at? "?" then
      if m.nesting = 0 then .error (c₁.fail .nestedTooDeeply e.location)
      else
        have h₂ := Cursor.length_advance_of_at? h₂
        let inner := { m with nesting := m.nesting - 1 }
        match e.conditional { inner with live := m.live && condition.truthy } c₁.advance with
        | .error failure => .error failure
        | .ok ⟨whenTrue, c₃, h₃⟩ =>
          if h₄ : c₃.at? ":" then
            have h₄ := Cursor.length_advance_of_at? h₄
            match e.conditional { inner with live := m.live && !condition.truthy } c₃.advance with
            | .error failure => .error failure
            | .ok ⟨whenFalse, c₅, h₅⟩ =>
              let chosen := if condition.truthy then whenTrue else whenFalse
              .ok ⟨.wrap chosen.value (whenTrue.unsigned || whenFalse.unsigned), c₅, by omega⟩
          else .error (c₃.fail .expectedColon (e.place c₃))
    else .ok ⟨condition, c₁, h₁⟩
termination_by (c.rest.length, BinaryOperator.levels + 3)

/-- Reads an operand that may hold binary operators of a level and of those that bind tighter. -/
def operators (e : Evaluator) (level : Nat) (m : Mode) (c : Cursor) : Except Failure (Operand c) :=
  if level < BinaryOperator.levels then
    match e.operators (level + 1) m c with
    | .error failure => .error failure
    | .ok ⟨left, c₁, h₁⟩ =>
      match e.more level left m c₁ with
      | .error failure => .error failure
      | .ok ⟨value, c₂, h₂⟩ => .ok ⟨value, c₂, by omega⟩
  else e.unary m c
termination_by (c.rest.length, BinaryOperator.levels - level + 2)
decreasing_by
  · right; omega
  · left; omega
  · right; omega

/-- Goes on after an operand with the operators of a level, from left to right. -/
def more (e : Evaluator) (level : Nat) (left : Value) (m : Mode) (c : Cursor) :
    Except Failure (Continuation c) :=
  match hop : c.operator? level with
  | none => .ok ⟨left, c, Nat.le_refl _⟩
  | some (op, place) =>
    have h₁ := Cursor.length_advance_of_operator? hop
    match e.operators (level + 1) { m with live := m.live && op.evaluatesRight left } c.advance with
    | .error failure => .error failure
    | .ok ⟨right, c₂, h₂⟩ =>
      match (if m.live then op.apply left right else .ok (op.skip left right)) with
      | .error cause => .error (c₂.fail cause place)
      | .ok value =>
        match e.more level value m c₂ with
        | .error failure => .error failure
        | .ok ⟨value, c₃, h₃⟩ => .ok ⟨value, c₃, by omega⟩
termination_by (c.rest.length, 0)

/-- Reads an operand that may begin with unary operators. -/
def unary (e : Evaluator) (m : Mode) (c : Cursor) : Except Failure (Operand c) :=
  match hop : c.unary? with
  | some op =>
    have h₁ := Cursor.length_advance_of_unary? hop
    if m.nesting = 0 then .error (c.fail .nestedTooDeeply e.location)
    else
      match e.unary { m with nesting := m.nesting - 1 } c.advance with
      | .error failure => .error failure
      | .ok ⟨value, c₂, h₂⟩ => .ok ⟨op.apply value, c₂, by omega⟩
  | none => e.primary m c
termination_by (c.rest.length, 1)

/-- Reads a constant, a name or an expression in parentheses. -/
def primary (e : Evaluator) (m : Mode) (c : Cursor) : Except Failure (Operand c) :=
  match hrest : c.rest with
  | [] => .error (c.fail (.missingOperand e.last.text) e.endPlace)
  | t :: _ =>
    have h₁ := Cursor.length_advance_of_cons hrest
    match t.kind with
    | .number =>
      match Constant.integer t.text with
      | .error cause => .error (c.fail cause t.location)
      | .ok value => .ok ⟨value, c.advance, h₁⟩
    | .character =>
      match Constant.character t.text with
      | .error cause => .error (c.fail cause t.location)
      | .ok value => .ok ⟨value, c.advance, h₁⟩
    | .identifier =>
      if t.text = "defined" then
        match e.applyDefined t.location c.advance with
        | .error failure => .error failure
        | .ok ⟨value, c₂, h₂⟩ => .ok ⟨value, c₂, by omega⟩
      else if m.live then
        .ok ⟨.ofBool false, { c.advance with undefined := t :: c.undefined }, h₁⟩
      else .ok ⟨.ofBool false, c.advance, h₁⟩
    | .string => .error (c.fail .stringLiteral t.location)
    | _ =>
      if t.isPunctuator "(" then
        if ConditionFault.parenthesisLimit ≤ m.parentheses then
          .error (c.fail .tooManyParentheses t.location)
        else
          match e.conditional { m with parentheses := m.parentheses + 1 } c.advance with
          | .error failure => .error failure
          | .ok ⟨value, c₂, h₂⟩ =>
            if c₂.at? ")" then
              .ok ⟨value, c₂.advance, by have := c₂.length_advance_le; omega⟩
            else .error (c₂.fail .expectedClose (e.place c₂))
      else .error (c.fail (.unexpected t.text) t.location)
termination_by (c.rest.length, 0)

end

end Evaluator

/-- What came of a condition: its value or its fault, and the undefined names that were evaluated,
in order. -/
structure Evaluation where
  result : Except (Located ConditionFault) Value
  undefined : List Token

/-- The value of the condition that tokens form. Layout is ignored. -/
def evaluate (s : Setting) (tokens : List Token) : Evaluation :=
  match tokens.filter fun t => !t.isLayout && t.kind ≠ .endOfInput with
  | [] => ⟨.error ⟨.noExpression, s.location⟩, []⟩
  | t :: rest =>
    let e : Evaluator := { s with last := (t :: rest).getLast (by simp) }
    match e.conditional { nesting := s.nestingLimit } { rest := t :: rest } with
    | .error failure => ⟨.error failure.fault, failure.undefined.reverse⟩
    | .ok ⟨value, c, _⟩ =>
      match c.rest with
      | [] => ⟨.ok value, c.undefined.reverse⟩
      | u :: _ => ⟨.error ⟨.unexpected u.text, u.location⟩, c.undefined.reverse⟩

end CPreprocessor
