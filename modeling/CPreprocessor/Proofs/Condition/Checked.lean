import CPreprocessor.Proofs.Condition.Conversion
import CPreprocessor.Proofs.Condition.Descent

/-!
# Checked conditions

`evaluateChecked` evaluates a condition by positions in its tokens: it looks at the token at a
position, at the last one where a position is behind it, and at the one before a missing operand, and
converts constants when it comes to them. It stops where there is no such token, and where its calls
are nested deeper than it was told. It evaluates every condition whose tokens are spelled as the lexer
spells them (`evaluateChecked_eq`), as no position is ever behind the end.
-/

namespace CPreprocessor

/-- The place behind a token. -/
def Token.behind (t : Token) : Location :=
  { t.location with column := t.location.column + t.text.length }

/-- A position in the tokens of a condition, and the undefined names that were evaluated before it,
last first. -/
structure Position where
  index : Nat
  undefined : List Token := []

namespace Position

variable {ε α : Type}

def advance (p : Position) : Position := { p with index := p.index + 1 }

def raise (p : Position) (cause : ConditionFault) (location : Option Location) :
    Except (Stop Failure) α :=
  .error (.raised ⟨⟨cause, location⟩, p.undefined⟩)

/-- The token at a position, or an end token behind the last one. -/
def current (tokens : List Token) (p : Position) : Except (Stop ε) Token :=
  if tokens.length ≤ p.index then
    (found tokens.getLast?).map fun last => { kind := .endOfInput, text := "", location := last.behind }
  else found tokens[p.index]?

/-- The token before a position. -/
def previous (tokens : List Token) (p : Position) : Except (Stop ε) Token :=
  match p.index with
  | 0 => .error .outOfRange
  | index + 1 => found tokens[index]?

/-- The tokens that are left at a position. -/
def cursor (tokens : List Token) (p : Position) : Cursor :=
  { rest := tokens.drop p.index, undefined := p.undefined }

end Position

/-- The binary operator of a level that a token is, with its place. -/
def Token.binaryOperator? (t : Token) (level : Nat) : Option (BinaryOperator × Location) :=
  if t.kind = .punctuator then
    ((BinaryOperator.ofText? t.text).filter (·.level = level)).map fun op => (op, t.location)
  else none

def Token.unaryOperator? (t : Token) : Option UnaryOperator :=
  if t.kind = .punctuator then UnaryOperator.ofText? t.text else none

namespace Setting

open Position

variable (s : Setting) (tokens : List Token)

/-- The value of an application of `defined`, after the operator at `keyword`. -/
def definedAt (keyword : Location) (p : Position) : Except (Stop Failure) (Value × Position) := do
  let opening ← current tokens p
  let isOpened := opening.isPunctuator "("
  let opened := if isOpened then p.advance else p
  let name ← current tokens opened
  if !name.isIdentifier then p.raise .definedWithoutName keyword
  else if isOpened then
    let closing ← current tokens opened.advance
    if closing.isPunctuator ")" then .ok (.ofBool (s.isDefined name.text), opened.advance.advance)
    else p.raise .definedWithoutClose closing.location
  else .ok (.ofBool (s.isDefined name.text), opened.advance)

/-- The value of a constant. -/
def constantAt (x : Except (Stop ConditionFault) Value) (t : Token) (p : Position) :
    Except (Stop Failure) (Value × Position) :=
  match x with
  | .ok value => .ok (value, p.advance)
  | .error (.raised cause) => p.raise cause t.location
  | .error .outOfRange => .error .outOfRange

mutual

/-- Reads a condition, down to the conditional operator. -/
def conditionalAt : Nat → Mode → Position → Except (Stop Failure) (Value × Position)
  | 0, _, _ => .error .outOfRange
  | depth + 1, m, p => do
    let (condition, p₁) ← operatorsAt depth 0 m p
    let mark ← current tokens p₁
    if mark.isPunctuator "?" then
      if m.nesting = 0 then p₁.raise .nestedTooDeeply s.location
      else
        let inner := { m with nesting := m.nesting - 1 }
        let (whenTrue, p₃) ←
          conditionalAt depth { inner with live := m.live && condition.truthy } p₁.advance
        let colon ← current tokens p₃
        if colon.isPunctuator ":" then
          let (whenFalse, p₅) ←
            conditionalAt depth { inner with live := m.live && !condition.truthy } p₃.advance
          let chosen := if condition.truthy then whenTrue else whenFalse
          .ok (.wrap chosen.value (whenTrue.unsigned || whenFalse.unsigned), p₅)
        else p₃.raise .expectedColon colon.location
    else .ok (condition, p₁)

/-- Reads an operand that may hold binary operators of a level and of those that bind tighter. -/
def operatorsAt : Nat → Nat → Mode → Position → Except (Stop Failure) (Value × Position)
  | 0, _, _, _ => .error .outOfRange
  | depth + 1, level, m, p => do
    if level < BinaryOperator.levels then
      let (left, p₁) ← operatorsAt depth (level + 1) m p
      moreAt depth level left m p₁
    else unaryAt depth m p

/-- Goes on after an operand with the operators of a level, from left to right. -/
def moreAt : Nat → Nat → Value → Mode → Position → Except (Stop Failure) (Value × Position)
  | 0, _, _, _, _ => .error .outOfRange
  | depth + 1, level, left, m, p => do
    let next ← current tokens p
    match next.binaryOperator? level with
    | none => .ok (left, p)
    | some (op, place) =>
      let (right, p₂) ← operatorsAt depth (level + 1)
        { m with live := m.live && op.evaluatesRight left } p.advance
      match (if m.live then op.apply left right else .ok (op.skip left right)) with
      | .error cause => p₂.raise cause place
      | .ok value => moreAt depth level value m p₂

/-- Reads an operand that may begin with unary operators. -/
def unaryAt : Nat → Mode → Position → Except (Stop Failure) (Value × Position)
  | 0, _, _ => .error .outOfRange
  | depth + 1, m, p => do
    let next ← current tokens p
    match next.unaryOperator? with
    | some op =>
      if m.nesting = 0 then p.raise .nestedTooDeeply s.location
      else
        let (value, p₂) ← unaryAt depth { m with nesting := m.nesting - 1 } p.advance
        .ok (op.apply value, p₂)
    | none => primaryAt depth m p

/-- Reads a constant, a name or an expression in parentheses. -/
def primaryAt : Nat → Mode → Position → Except (Stop Failure) (Value × Position)
  | 0, _, _ => .error .outOfRange
  | depth + 1, m, p => do
    let t ← current tokens p
    match t.kind with
    | .endOfInput =>
      let before ← previous tokens p
      p.raise (.missingOperand before.text) t.location
    | .number => constantAt (Constant.integerChecked t.text) t p
    | .character => constantAt (Constant.characterChecked t.text) t p
    | .identifier =>
      if t.text = "defined" then definedAt s tokens t.location p.advance
      else if m.live then .ok (.ofBool false, { p.advance with undefined := t :: p.undefined })
      else .ok (.ofBool false, p.advance)
    | .string => p.raise .stringLiteral t.location
    | _ =>
      if t.isPunctuator "(" then
        if ConditionFault.parenthesisLimit ≤ m.parentheses then
          p.raise .tooManyParentheses t.location
        else
          let (value, p₂) ← conditionalAt depth { m with parentheses := m.parentheses + 1 } p.advance
          let closing ← current tokens p₂
          if closing.isPunctuator ")" then .ok (value, p₂.advance)
          else p₂.raise .expectedClose closing.location
      else p.raise (.unexpected t.text) t.location

end

end Setting

/-! ## The token at a position -/

/-- The next token, or an end token behind the condition. -/
def Evaluator.next (e : Evaluator) (c : Cursor) : Token :=
  c.rest.head?.getD { kind := .endOfInput, text := "", location := e.endPlace }

namespace Evaluator

variable (e : Evaluator) (c : Cursor)

theorem isPunctuator_next (text : String) : (e.next c).isPunctuator text = c.at? text := by
  obtain ⟨rest, undefined⟩ := c
  cases rest with
  | nil => rfl
  | cons t rest => rfl

theorem location_next : (e.next c).location = e.place c := by
  obtain ⟨rest, undefined⟩ := c
  cases rest with
  | nil => rfl
  | cons t rest => rfl

theorem binaryOperator?_next (level : Nat) : (e.next c).binaryOperator? level = c.operator? level := by
  obtain ⟨rest, undefined⟩ := c
  cases rest with
  | nil => rfl
  | cons t rest => rfl

theorem unaryOperator?_next : (e.next c).unaryOperator? = c.unary? := by
  obtain ⟨rest, undefined⟩ := c
  cases rest with
  | nil => rfl
  | cons t rest => rfl

theorem filter_isIdentifier_head? :
    c.rest.head?.filter Token.isIdentifier =
      if (e.next c).isIdentifier then some (e.next c) else none := by
  obtain ⟨rest, undefined⟩ := c
  cases rest with
  | nil => rfl
  | cons t rest => rfl

theorem length_advance_of_isIdentifier_next (h : (e.next c).isIdentifier = true) :
    c.advance.rest.length < c.rest.length := by
  cases hrest : c.rest with
  | nil =>
    rw [next, hrest] at h
    cases h
  | cons t rest =>
    rw [← hrest]
    exact Cursor.length_advance_of_cons hrest

end Evaluator

namespace Position

variable {tokens : List Token} {last : Token} {p : Position}

theorem current_eq (hlast : tokens.getLast? = some last) (s : Setting) (p : Position) :
    (p.current tokens : Except (Stop ε) Token) =
      .ok (({ s with last } : Evaluator).next (p.cursor tokens)) := by
  rw [current, Evaluator.next, cursor, List.head?_drop]
  split
  · rename_i hend
    rw [hlast, List.getElem?_eq_none hend]
    rfl
  · rename_i hend
    rw [List.getElem?_eq_getElem (Nat.lt_of_not_le hend)]
    rfl

theorem previous_eq (hlast : tokens.getLast? = some last) (h : p.index ≤ tokens.length)
    (hend : (p.cursor tokens).rest = []) : (p.previous tokens : Except (Stop ε) Token) = .ok last := by
  have hindex := Nat.le_antisymm h (List.drop_eq_nil_iff.mp hend)
  rw [List.getLast?_eq_getElem?, ← hindex] at hlast
  rw [previous]
  split
  · rename_i hzero
    rw [hindex, List.length_eq_zero_iff] at hzero
    rw [hzero] at hlast
    cases hlast
  · rename_i index hsucc
    rw [hsucc, Nat.succ_sub_one] at hlast
    rw [hlast]
    rfl

theorem cursor_advance (tokens : List Token) (p : Position) :
    p.advance.cursor tokens = (p.cursor tokens).advance := by
  rw [advance, cursor, Cursor.advance, cursor, List.tail_drop]

theorem advance_le (h : (p.advance.cursor tokens).rest.length < (p.cursor tokens).rest.length) :
    p.advance.index ≤ tokens.length := by
  have hlength : (p.cursor tokens).rest.length = tokens.length - p.index := List.length_drop
  have hindex : p.advance.index = p.index + 1 := rfl
  omega

end Position

/-! ## The descent -/

/-- What is read at a position is what is read from the tokens that are left there. -/
def Matches (tokens : List Token) (result : Except (Stop Failure) (Value × Position)) :
    Except Failure (Value × Cursor) → Prop
  | .error failure => result = .error (.raised failure)
  | .ok (v, c) => ∃ p : Position, p.index ≤ tokens.length ∧ p.cursor tokens = c ∧ result = .ok (v, p)

/-- What is done with what was read. -/
theorem Matches.bind {tokens : List Token} {result : Except (Stop Failure) (Value × Position)}
    {read : Except Failure (Value × Cursor)}
    {f : Value × Position → Except (Stop Failure) (Value × Position)}
    {g : Value → Cursor → Except Failure (Value × Cursor)} :
    Matches tokens result read →
    (∀ (v : Value) (p : Position), p.index ≤ tokens.length →
      read = .ok (v, p.cursor tokens) → Matches tokens (f (v, p)) (g v (p.cursor tokens))) →
    Matches tokens (result >>= f)
      (match read with
      | .error failure => .error failure
      | .ok (v, c) => g v c) := by
  intro h hf
  cases read with
  | error failure =>
    rw [show result = .error (.raised failure) from h]
    rfl
  | ok read =>
    obtain ⟨v, c⟩ := read
    obtain ⟨p, hp, rfl, rfl⟩ := h
    exact hf v p hp rfl

/-- Calls that may be nested `depth` deep match the descent on as many tokens as that allows. -/
structure Setting.Descends (s : Setting) (tokens : List Token) (last : Token) (depth : Nat) : Prop where
  conditional : ∀ (m : Mode) (p : Position), p.index ≤ tokens.length →
    16 * (p.cursor tokens).rest.length + 14 ≤ depth →
    Matches tokens (s.conditionalAt tokens depth m p)
      (({ s with last } : Evaluator).readConditional m (p.cursor tokens))
  operators : ∀ (level : Nat) (m : Mode) (p : Position), p.index ≤ tokens.length →
    16 * (p.cursor tokens).rest.length + (BinaryOperator.levels - level) + 3 ≤ depth →
    Matches tokens (s.operatorsAt tokens depth level m p)
      (({ s with last } : Evaluator).readOperators m (p.cursor tokens) level)
  more : ∀ (level : Nat) (left : Value) (m : Mode) (p : Position), p.index ≤ tokens.length →
    16 * (p.cursor tokens).rest.length + 1 ≤ depth →
    Matches tokens (s.moreAt tokens depth level left m p)
      (({ s with last } : Evaluator).readMore m (p.cursor tokens) level left)
  unary : ∀ (m : Mode) (p : Position), p.index ≤ tokens.length →
    16 * (p.cursor tokens).rest.length + 2 ≤ depth →
    Matches tokens (s.unaryAt tokens depth m p)
      (({ s with last } : Evaluator).readUnary m (p.cursor tokens))
  primary : ∀ (m : Mode) (p : Position), p.index ≤ tokens.length →
    16 * (p.cursor tokens).rest.length + 1 ≤ depth →
    Matches tokens (s.primaryAt tokens depth m p)
      (({ s with last } : Evaluator).readPrimary m (p.cursor tokens))

namespace Setting.Descends

variable {s : Setting} {tokens : List Token} {last : Token} {depth : Nat}

theorem conditional_succ (hlast : tokens.getLast? = some last) (h : s.Descends tokens last depth)
    (m : Mode) (p : Position) (hp : p.index ≤ tokens.length)
    (hdepth : 16 * (p.cursor tokens).rest.length + 14 ≤ depth + 1) :
    Matches tokens (s.conditionalAt tokens (depth + 1) m p)
      (({ s with last } : Evaluator).readConditional m (p.cursor tokens)) := by
  have hcondition := h.operators 0 m p hp (by rw [BinaryOperator.levels]; omega)
  rw [conditionalAt, Evaluator.readConditional_eq]
  refine hcondition.bind fun condition p₁ hp₁ hread => ?_
  have hlength₁ := Evaluator.length_of_readOperators hread
  dsimp only
  rw [Position.current_eq hlast s, ok_bind, Evaluator.isPunctuator_next]
  split
  · rename_i hmark
    have hnext₁ := Cursor.length_advance_of_at? hmark
    rw [← Position.cursor_advance] at hnext₁ ⊢
    split
    · rfl
    refine (h.conditional _ _ (Position.advance_le hnext₁) (by omega)).bind
      fun whenTrue p₃ hp₃ hread => ?_
    have hlength₃ := Evaluator.length_of_readConditional hread
    dsimp only
    rw [Position.current_eq hlast s, ok_bind, Evaluator.isPunctuator_next, Evaluator.location_next]
    split
    · rename_i hcolon
      have hnext₃ := Cursor.length_advance_of_at? hcolon
      rw [← Position.cursor_advance] at hnext₃ ⊢
      refine (h.conditional _ _ (Position.advance_le hnext₃) (by omega)).bind
        fun whenFalse p₅ hp₅ hread => ?_
      exact ⟨p₅, hp₅, rfl, rfl⟩
    · rfl
  · exact ⟨p₁, hp₁, rfl, rfl⟩

theorem operators_succ (h : s.Descends tokens last depth) (level : Nat) (m : Mode) (p : Position)
    (hp : p.index ≤ tokens.length)
    (hdepth : 16 * (p.cursor tokens).rest.length + (BinaryOperator.levels - level) + 3 ≤ depth + 1) :
    Matches tokens (s.operatorsAt tokens (depth + 1) level m p)
      (({ s with last } : Evaluator).readOperators m (p.cursor tokens) level) := by
  rw [operatorsAt, Evaluator.readOperators_eq]
  split
  · rename_i hlt
    refine (h.operators (level + 1) m p hp (by omega)).bind fun left p₁ hp₁ hread => ?_
    have hlength := Evaluator.length_of_readOperators hread
    exact h.more level left m p₁ hp₁ (by omega)
  · exact h.unary m p hp (by omega)

theorem more_succ (hlast : tokens.getLast? = some last) (h : s.Descends tokens last depth)
    (level : Nat) (left : Value) (m : Mode) (p : Position) (hp : p.index ≤ tokens.length)
    (hdepth : 16 * (p.cursor tokens).rest.length + 1 ≤ depth + 1) :
    Matches tokens (s.moreAt tokens (depth + 1) level left m p)
      (({ s with last } : Evaluator).readMore m (p.cursor tokens) level left) := by
  rw [moreAt, Evaluator.readMore_eq, Position.current_eq hlast s, ok_bind,
    Evaluator.binaryOperator?_next]
  cases hop : (p.cursor tokens).operator? level with
  | none => exact ⟨p, hp, rfl, rfl⟩
  | some found =>
    obtain ⟨op, place⟩ := found
    have hnext := Cursor.length_advance_of_operator? hop
    rw [← Position.cursor_advance] at hnext
    dsimp only
    rw [← Position.cursor_advance]
    refine (h.operators (level + 1) _ _ (Position.advance_le hnext)
      (by rw [BinaryOperator.levels]; omega)).bind fun right p₂ hp₂ hread => ?_
    have hlength := Evaluator.length_of_readOperators hread
    dsimp only
    cases (if m.live then op.apply left right else .ok (op.skip left right)) with
    | error cause => rfl
    | ok value => exact h.more level value m p₂ hp₂ (by omega)

theorem unary_succ (hlast : tokens.getLast? = some last) (h : s.Descends tokens last depth)
    (m : Mode) (p : Position) (hp : p.index ≤ tokens.length)
    (hdepth : 16 * (p.cursor tokens).rest.length + 2 ≤ depth + 1) :
    Matches tokens (s.unaryAt tokens (depth + 1) m p)
      (({ s with last } : Evaluator).readUnary m (p.cursor tokens)) := by
  rw [unaryAt, Evaluator.readUnary_eq, Position.current_eq hlast s, ok_bind,
    Evaluator.unaryOperator?_next]
  cases hop : (p.cursor tokens).unary? with
  | none => exact h.primary m p hp (by omega)
  | some op =>
    have hnext := Cursor.length_advance_of_unary? hop
    rw [← Position.cursor_advance] at hnext
    dsimp only
    rw [← Position.cursor_advance]
    split
    · rfl
    refine (h.unary _ _ (Position.advance_le hnext) (by omega)).bind fun value p₂ hp₂ hread => ?_
    exact ⟨p₂, hp₂, rfl, rfl⟩

theorem defined_matches (hlast : tokens.getLast? = some last) (s : Setting) (keyword : Location)
    (p : Position) :
    Matches tokens (s.definedAt tokens keyword p)
      (({ s with last } : Evaluator).readDefined (p.cursor tokens) keyword) := by
  rw [definedAt, Evaluator.readDefined_eq, Position.current_eq hlast s, ok_bind,
    Evaluator.isPunctuator_next]
  by_cases hmark : (p.cursor tokens).at? "(" = true
  · have hnext := Cursor.length_advance_of_at? hmark
    simp only [hmark, if_true]
    rw [← Position.cursor_advance, Position.current_eq hlast s, ok_bind,
      Evaluator.filter_isIdentifier_head? { s with last }]
    by_cases hname : (({ s with last } : Evaluator).next (p.advance.cursor tokens)).isIdentifier = true
    · have hopened := Evaluator.length_advance_of_isIdentifier_next _ _ hname
      simp only [hname, if_true, Bool.not_true, Bool.false_eq_true, if_false]
      rw [← Position.cursor_advance] at hopened ⊢
      rw [Position.current_eq hlast s, ok_bind, Evaluator.isPunctuator_next, Evaluator.location_next]
      split
      · rename_i hclosed
        have hclose := Cursor.length_advance_of_at? hclosed
        rw [← Position.cursor_advance] at hclose ⊢
        exact ⟨_, Position.advance_le hclose, rfl, rfl⟩
      · rfl
    · simp only [hname]
      rfl
  · simp only [hmark, Bool.false_eq_true, if_false]
    rw [Position.current_eq hlast s, ok_bind, Evaluator.filter_isIdentifier_head? { s with last }]
    by_cases hname : (({ s with last } : Evaluator).next (p.cursor tokens)).isIdentifier = true
    · have hopened := Evaluator.length_advance_of_isIdentifier_next _ _ hname
      simp only [hname, if_true, Bool.not_true, Bool.false_eq_true, if_false]
      rw [← Position.cursor_advance] at hopened ⊢
      exact ⟨_, Position.advance_le hopened, rfl, rfl⟩
    · simp only [hname]
      rfl

/-- A constant at a position. -/
theorem constant_matches {t : Token} {p : Position} {x : Except ConditionFault Value}
    (h : p.advance.index ≤ tokens.length) :
    Matches tokens (constantAt (raising x) t p)
      (match x with
      | .error cause => .error ((p.cursor tokens).fail cause t.location)
      | .ok value => .ok (value, (p.cursor tokens).advance)) := by
  cases x with
  | error cause => rfl
  | ok value => exact ⟨_, h, p.cursor_advance tokens, rfl⟩

theorem primary_succ (hlast : tokens.getLast? = some last)
    (htokens : ∀ t ∈ tokens, t.Lexed ∧ t.kind ≠ .endOfInput) (h : s.Descends tokens last depth)
    (m : Mode) (p : Position) (hp : p.index ≤ tokens.length)
    (hdepth : 16 * (p.cursor tokens).rest.length + 1 ≤ depth + 1) :
    Matches tokens (s.primaryAt tokens (depth + 1) m p)
      (({ s with last } : Evaluator).readPrimary m (p.cursor tokens)) := by
  rw [primaryAt, Position.current_eq hlast s, ok_bind]
  cases hrest : (p.cursor tokens).rest with
  | nil =>
    rw [Evaluator.readPrimary_nil _ _ _ hrest, Evaluator.next, hrest]
    change Matches _ (p.previous tokens >>= _) _
    rw [Position.previous_eq hlast hp hrest]
    rfl
  | cons t rest =>
    have hmem : t ∈ tokens := List.mem_of_mem_drop (by
      change t ∈ (p.cursor tokens).rest
      rw [hrest]
      exact List.mem_cons_self)
    have hnext := Cursor.length_advance_of_cons hrest
    rw [← Position.cursor_advance] at hnext
    have hadvance := Position.advance_le hnext
    have ht : ({ s with last } : Evaluator).next (p.cursor tokens) = t := by
      rw [Evaluator.next, hrest]
      rfl
    rw [Evaluator.readPrimary_eq _ _ _ hrest, ht]
    cases hkind : t.kind with
    | endOfInput => exact absurd hkind (htokens t hmem).2
    | number =>
      dsimp only
      rw [Constant.integerChecked_eq]
      exact constant_matches hadvance
    | character =>
      dsimp only
      rw [Constant.characterChecked_eq (htokens t hmem).1 hkind]
      exact constant_matches hadvance
    | identifier =>
      dsimp only
      rw [← Position.cursor_advance]
      split
      · exact defined_matches hlast s t.location p.advance
      split
      · exact ⟨{ p.advance with undefined := t :: p.undefined }, hadvance, rfl, rfl⟩
      · exact ⟨p.advance, hadvance, rfl, rfl⟩
    | string => rfl
    | _ =>
      dsimp only
      rw [← Position.cursor_advance]
      split
      · split
        · rfl
        refine (h.conditional _ _ hadvance (by omega)).bind fun value p₂ hp₂ hread => ?_
        dsimp only
        rw [Position.current_eq hlast s, ok_bind, Evaluator.isPunctuator_next,
          Evaluator.location_next]
        split
        · rename_i hclosed
          have hclose := Cursor.length_advance_of_at? hclosed
          rw [← Position.cursor_advance] at hclose ⊢
          exact ⟨_, Position.advance_le hclose, rfl, rfl⟩
        · rfl
      · rfl

end Setting.Descends

/-- Calls that are nested deep enough for what is left match the descent. -/
theorem Setting.descends {tokens : List Token} {last : Token} (hlast : tokens.getLast? = some last)
    (htokens : ∀ t ∈ tokens, t.Lexed ∧ t.kind ≠ .endOfInput) (s : Setting) (depth : Nat) :
    s.Descends tokens last depth := by
  induction depth with
  | zero => exact ⟨nofun, nofun, nofun, nofun, nofun⟩
  | succ depth ih =>
    exact ⟨ih.conditional_succ hlast, ih.operators_succ, ih.more_succ hlast, ih.unary_succ hlast,
      ih.primary_succ hlast htokens⟩

/-- The value of the condition that tokens form. Layout is ignored. -/
def evaluateChecked {ε : Type} (s : Setting) (tokens : List Token) : Except (Stop ε) Evaluation :=
  let tokens := tokens.filter fun t => !t.isLayout && t.kind ≠ .endOfInput
  if tokens.isEmpty then .ok ⟨.error ⟨.noExpression, s.location⟩, []⟩
  else
    match s.conditionalAt tokens (16 * tokens.length + 16) { nesting := s.nestingLimit } { index := 0 } with
    | .error .outOfRange => .error .outOfRange
    | .error (.raised failure) => .ok ⟨.error failure.fault, failure.undefined.reverse⟩
    | .ok (value, p) =>
      if p.index < tokens.length then
        (p.current tokens).map fun t => ⟨.error ⟨.unexpected t.text, t.location⟩, p.undefined.reverse⟩
      else .ok ⟨.ok value, p.undefined.reverse⟩

/-- A condition whose tokens are spelled as the lexer spells them, or are pasted from such, is evaluated
by positions. -/
theorem evaluateChecked_eq {ε : Type} (s : Setting) {tokens : List Token} (h : ∀ t ∈ tokens, t.Lexed) :
    (evaluateChecked s tokens : Except (Stop ε) Evaluation) = .ok (evaluate s tokens) := by
  have htokens : ∀ t ∈ tokens.filter fun t => !t.isLayout && t.kind ≠ .endOfInput,
      t.Lexed ∧ t.kind ≠ .endOfInput := by
    intro t ht
    obtain ⟨hmem, hkept⟩ := List.mem_filter.mp ht
    exact ⟨h t hmem, of_decide_eq_true (Bool.and_eq_true_iff.mp hkept).2⟩
  unfold evaluateChecked evaluate
  generalize (tokens.filter fun t => !t.isLayout && t.kind ≠ .endOfInput) = tokens at htokens ⊢
  cases tokens with
  | nil => rfl
  | cons t rest =>
    have hlast := List.getLast?_eq_some_getLast (List.cons_ne_nil t rest)
    have hdescent := (s.descends hlast htokens (16 * (t :: rest).length + 16)).conditional
      { nesting := s.nestingLimit } { index := 0 } (Nat.zero_le _) (by
        change 16 * (t :: rest).length + 14 ≤ _
        omega)
    change Matches _ _ (Except.map _ (Evaluator.conditional _ _ { rest := t :: rest })) at hdescent
    dsimp only [List.isEmpty_cons]
    rw [if_neg nofun]
    cases hread : Evaluator.conditional { s with last := (t :: rest).getLast (List.cons_ne_nil t rest) }
        { nesting := s.nestingLimit } { rest := t :: rest } with
    | error failure =>
      rw [hread] at hdescent
      rw [show s.conditionalAt .. = .error (.raised failure) from hdescent]
    | ok o =>
      obtain ⟨value, c, hshorter⟩ := o
      rw [hread] at hdescent
      obtain ⟨p, -, rfl, hresult⟩ := hdescent
      rw [hresult]
      dsimp only [Position.cursor]
      split
      · rename_i hlt
        rw [Position.current, if_neg (Nat.not_le_of_lt hlt), found_getElem? hlt,
          List.drop_eq_getElem_cons hlt]
        rfl
      · rename_i hlt
        rw [List.drop_eq_nil_of_le (Nat.le_of_not_lt hlt)]

end CPreprocessor
