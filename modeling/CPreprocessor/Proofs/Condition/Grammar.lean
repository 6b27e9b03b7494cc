import CPreprocessor.Condition.Evaluator
import CPreprocessor.Proofs.Condition.CharacterConstant

/-!
# The grammar of conditions

`Derives k tokens x` says that the tokens form the expression `x` at the precedence level `k`, of
thirteen. `Expression.eval` is what an expression means, `Expression.undefined` which undefined names
are evaluated on the way. Neither speaks of how a condition is read.
-/

namespace CPreprocessor

inductive Expression
  | constant (v : Value)
  | name (t : Token)
  | defined (name : String)
  | unary (op : UnaryOperator) (operand : Expression)
  | binary (op : BinaryOperator) (place : Location) (left right : Expression)
  | choice (condition whenTrue whenFalse : Expression)
  | group (inner : Expression)

/-! ## Syntax -/

def UnaryOperator.text : UnaryOperator → String
  | plus => "+"
  | minus => "-"
  | not => "!"
  | complement => "~"

namespace Expression

/-- The level of unary operators; binary operators are on the levels from one to ten. -/
def unaryLevel : Nat := BinaryOperator.levels + 1

/-- The level of constants, names and groups. -/
def primaryLevel : Nat := BinaryOperator.levels + 2

/-- The expressions of one constant, one name or one `defined`. A newline at the end of a number's
text is not minded. -/
inductive Leaf : List Token → Expression → Prop
  | number {t : Token} {v : Value} (kind : t.kind = .number)
    (h : IntegerConstant (Constant.chomp t.text.toList) v) : Leaf [t] (constant v)
  | character {t : Token} {v : Value} (kind : t.kind = .character)
    (h : CharacterConstant t.text.toList v) : Leaf [t] (constant v)
  | name {t : Token} (kind : t.kind = .identifier) (ne : t.text ≠ "defined") : Leaf [t] (name t)
  | defined {keyword t : Token} (hkeyword : keyword.kind = .identifier)
    (htext : keyword.text = "defined") (kind : t.kind = .identifier) :
    Leaf [keyword, t] (defined t.text)
  | definedIn {keyword opened t closed : Token} (hkeyword : keyword.kind = .identifier)
    (htext : keyword.text = "defined") (hopened : opened.isPunctuator "(" = true)
    (kind : t.kind = .identifier) (hclosed : closed.isPunctuator ")" = true) :
    Leaf [keyword, opened, t, closed] (defined t.text)

/-- The tokens form an expression of a level or of one that binds tighter. Binary operators group
from the left, the conditional operator from the right. -/
inductive Derives : Nat → List Token → Expression → Prop
  | tighter {k : Nat} {ts : List Token} {x : Expression} (lt : k < primaryLevel)
    (h : Derives (k + 1) ts x) : Derives k ts x
  | choice {cs ts fs : List Token} {mark colon : Token} {c t f : Expression}
    (hc : Derives 1 cs c) (hmark : mark.isPunctuator "?" = true) (ht : Derives 0 ts t)
    (hcolon : colon.isPunctuator ":" = true) (hf : Derives 0 fs f) :
    Derives 0 (cs ++ mark :: (ts ++ colon :: fs)) (choice c t f)
  | binary {op : BinaryOperator} {t : Token} {ls rs : List Token} {l r : Expression}
    (hl : Derives (op.level + 1) ls l) (ht : t.isPunctuator op.text = true)
    (hr : Derives (op.level + 2) rs r) :
    Derives (op.level + 1) (ls ++ t :: rs) (binary op t.location l r)
  | unary {op : UnaryOperator} {t : Token} {ts : List Token} {x : Expression}
    (ht : t.isPunctuator op.text = true) (h : Derives unaryLevel ts x) :
    Derives unaryLevel (t :: ts) (unary op x)
  | leaf {ts : List Token} {x : Expression} (h : Leaf ts x) : Derives primaryLevel ts x
  | group {opened closed : Token} {ts : List Token} {x : Expression}
    (hopened : opened.isPunctuator "(" = true) (h : Derives 0 ts x)
    (hclosed : closed.isPunctuator ")" = true) :
    Derives primaryLevel (opened :: (ts ++ [closed])) (group x)

/-- An expression of a level is one of every level that binds less tight. -/
theorem Derives.mono {j k : Nat} {ts : List Token} {x : Expression} (h : Derives k ts x)
    (hk : k ≤ primaryLevel) (hj : j ≤ k) : Derives j ts x := by
  induction hj using Nat.decreasingInduction with
  | of_succ i hi ih => exact .tighter (Nat.lt_of_lt_of_le hi hk) ih
  | self => exact h

/-- How deep groups are nested. -/
def parentheses : Expression → Nat
  | constant _ | name _ | defined _ => 0
  | unary _ x => x.parentheses
  | binary _ _ l r => max l.parentheses r.parentheses
  | choice c t f => max c.parentheses (max t.parentheses f.parentheses)
  | group x => x.parentheses + 1

/-- How deep unary operators and conditional operators are nested. -/
def nesting : Expression → Nat
  | constant _ | name _ | defined _ => 0
  | unary _ x => x.nesting + 1
  | binary _ _ l r => max l.nesting r.nesting
  | choice c t f => max c.nesting (max t.nesting f.nesting + 1)
  | group x => x.nesting

/-! ## Meaning -/

/-- Whether an expression is of the unsigned type, which no value has a say in. -/
def unsigned : Expression → Bool
  | constant v => v.unsigned
  | name _ | defined _ => false
  | unary .not _ => false
  | unary _ x => x.unsigned
  | binary op _ l r =>
    match op with
    | .or | .and | .eq | .ne | .lt | .le | .gt | .ge => false
    | .shiftLeft | .shiftRight => l.unsigned
    | _ => l.unsigned || r.unsigned
  | choice _ t f => t.unsigned || f.unsigned
  | group x => x.unsigned

section
variable (isDefined : String → Bool)

/-- The value of an expression, or the first fault from the left. The right operand of a logical
operator is evaluated if the left one does not decide, and one branch of a conditional operator. -/
def eval : Expression → Except (Located ConditionFault) Value
  | constant v => .ok v
  | name _ => .ok (.ofBool false)
  | defined macroName => .ok (.ofBool (isDefined macroName))
  | unary op x => x.eval.map op.apply
  | binary op place l r =>
    match l.eval with
    | .error fault => .error fault
    | .ok a =>
      if op.evaluatesRight a then
        match r.eval with
        | .error fault => .error fault
        | .ok b => (op.apply a b).mapError fun cause => ⟨cause, place⟩
      else .ok (.ofBool a.truthy)
  | choice c t f =>
    match c.eval with
    | .error fault => .error fault
    | .ok a =>
      (if a.truthy then t.eval else f.eval).map fun v =>
        .wrap v.value (t.unsigned || f.unsigned)
  | group x => x.eval

/-- The undefined names that are evaluated, in order. -/
def undefined : Expression → List Token
  | constant _ | defined _ => []
  | name t => [t]
  | unary _ x => x.undefined
  | binary op _ l r =>
    match l.eval isDefined with
    | .error _ => l.undefined
    | .ok a => l.undefined ++ if op.evaluatesRight a then r.undefined else []
  | choice c t f =>
    match c.eval isDefined with
    | .error _ => c.undefined
    | .ok a => c.undefined ++ if a.truthy then t.undefined else f.undefined
  | group x => x.undefined

end

end Expression

end CPreprocessor
