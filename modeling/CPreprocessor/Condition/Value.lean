import CPreprocessor.Condition.Fault

/-!
Values of conditions, and the operators on them.
-/

namespace CPreprocessor

/-! ## Values

Values of conditions: 64-bit integers, signed in two's complement or unsigned. A value holds the
integer that its bits denote, so that `Value.wrap` is the one place where bits are cut off.
-/

/-- An integer and whether it is of the unsigned type. -/
structure Value where
  value : Int
  unsigned : Bool := false
deriving DecidableEq, Inhabited

namespace Value

/-- How many values each type has: the number of patterns of 64 bits. -/
def modulus : Nat := 18446744073709551616

/-- How many values of the signed type are not negative. -/
def signedBound : Nat := 9223372036854775808

/-- The integer of the given type with the same lowest 64 bits as `n`. -/
def wrap (n : Int) (unsigned : Bool) : Value :=
  ⟨if unsigned then n % modulus else n.bmod modulus, unsigned⟩

/-- Whether a value is one that its type has. -/
def InRange (v : Value) : Prop :=
  if v.unsigned then 0 ≤ v.value ∧ v.value < modulus
  else -(signedBound : Int) ≤ v.value ∧ v.value < signedBound

/-- The signed 1 or 0 of a truth value. -/
def ofBool (b : Bool) : Value := ⟨if b then 1 else 0, false⟩

/-- Whether a value counts as true. -/
def truthy (v : Value) : Bool := v.value ≠ 0

/-- The value read as unsigned. -/
def asUnsigned (v : Value) : Int := v.value % modulus

/-- The value read as the type that an operation has. -/
def operand (v : Value) (unsigned : Bool) : Int := if unsigned then v.asUnsigned else v.value

/-- The lowest 64 bits. -/
def bits (v : Value) : BitVec 64 := BitVec.ofInt 64 v.value

/-- The decimal form, with `u` after an unsigned value. -/
def render (v : Value) : String := toString v.value ++ if v.unsigned then "u" else ""

end Value

/-! ## Operators

The operators of conditions, on ten levels of binding from `||` to `*`, and what they compute. An
operation in a skipped operand computes nothing, but its type is the one it would have.
-/

inductive BinaryOperator
  | or | and | bitOr | bitXor | bitAnd | eq | ne | lt | le | gt | ge | shiftLeft | shiftRight
  | add | sub | mul | div | mod
deriving DecidableEq, Inhabited

inductive UnaryOperator
  | plus | minus | not | complement
deriving DecidableEq, Inhabited

namespace BinaryOperator

def levels : Nat := 10

/-- The level of an operator: the higher, the tighter it binds. -/
def level : BinaryOperator → Nat
  | or => 0
  | and => 1
  | bitOr => 2
  | bitXor => 3
  | bitAnd => 4
  | eq | ne => 5
  | lt | le | gt | ge => 6
  | shiftLeft | shiftRight => 7
  | add | sub => 8
  | mul | div | mod => 9

def text : BinaryOperator → String
  | or => "||"
  | and => "&&"
  | bitOr => "|"
  | bitXor => "^"
  | bitAnd => "&"
  | eq => "=="
  | ne => "!="
  | lt => "<"
  | le => "<="
  | gt => ">"
  | ge => ">="
  | shiftLeft => "<<"
  | shiftRight => ">>"
  | add => "+"
  | sub => "-"
  | mul => "*"
  | div => "/"
  | mod => "%"

def all : List BinaryOperator :=
  [or, and, bitOr, bitXor, bitAnd, eq, ne, lt, le, gt, ge, shiftLeft, shiftRight, add, sub, mul,
   div, mod]

def ofText? (text : String) : Option BinaryOperator := all.find? (·.text = text)

/-- Whether the right operand is evaluated, given the left one. -/
def evaluatesRight (op : BinaryOperator) (left : Value) : Bool :=
  match op with
  | or => !left.truthy
  | and => left.truthy
  | _ => true

/-- A shift by a count that is in range. A right shift keeps the sign of a signed value. -/
def shift (op : BinaryOperator) (left : Value) (count : Nat) : Value :=
  let factor : Nat := 1 <<< count
  if op = shiftLeft then .wrap (left.value * factor) left.unsigned
  else .wrap (left.value / factor) left.unsigned

/-- What an operator computes from evaluated operands. Except in a shift, which has the type of its
left operand, both are brought to one type, unsigned if either is. Division truncates toward zero.
-/
def apply (op : BinaryOperator) (left right : Value) : Except ConditionFault Value :=
  let unsigned := left.unsigned || right.unsigned
  let a := left.operand unsigned
  let b := right.operand unsigned
  match op with
  | or => .ok (.ofBool (left.truthy || right.truthy))
  | and => .ok (.ofBool (left.truthy && right.truthy))
  | bitOr => .ok (.wrap (BitVec.ofInt 64 a ||| BitVec.ofInt 64 b).toInt unsigned)
  | bitXor => .ok (.wrap (BitVec.ofInt 64 a ^^^ BitVec.ofInt 64 b).toInt unsigned)
  | bitAnd => .ok (.wrap (BitVec.ofInt 64 a &&& BitVec.ofInt 64 b).toInt unsigned)
  | eq => .ok (.ofBool (a = b))
  | ne => .ok (.ofBool (a ≠ b))
  | lt => .ok (.ofBool (a < b))
  | le => .ok (.ofBool (a ≤ b))
  | gt => .ok (.ofBool (a > b))
  | ge => .ok (.ofBool (a ≥ b))
  | shiftLeft | shiftRight =>
    if right.value < 0 || 64 ≤ right.value then .error (.shiftCount right.value)
    else .ok (op.shift left right.value.toNat)
  | add => .ok (.wrap (a + b) unsigned)
  | sub => .ok (.wrap (a - b) unsigned)
  | mul => .ok (.wrap (a * b) unsigned)
  | div => if b = 0 then .error (.divisionByZero false) else .ok (.wrap (a.tdiv b) unsigned)
  | mod => if b = 0 then .error (.divisionByZero true) else .ok (.wrap (a.tmod b) unsigned)

/-- What stands for the value of a skipped operation: zero, of the type the operation has. The
logical operators still look at their operands. -/
def skip (op : BinaryOperator) (left right : Value) : Value :=
  match op with
  | or => .ofBool (left.truthy || right.truthy)
  | and => .ofBool (left.truthy && right.truthy)
  | eq | ne | lt | le | gt | ge => .ofBool false
  | shiftLeft | shiftRight => ⟨0, left.unsigned⟩
  | bitOr | bitXor | bitAnd | add | sub | mul | div | mod => ⟨0, left.unsigned || right.unsigned⟩

end BinaryOperator

namespace UnaryOperator

def ofText? (text : String) : Option UnaryOperator :=
  if text = "+" then some plus
  else if text = "-" then some minus
  else if text = "!" then some not
  else if text = "~" then some complement
  else none

def apply (op : UnaryOperator) (v : Value) : Value :=
  match op with
  | plus => v
  | minus => .wrap (-v.value) v.unsigned
  | not => .ofBool (!v.truthy)
  | complement => .wrap (-v.value - 1) v.unsigned

end UnaryOperator

end CPreprocessor
