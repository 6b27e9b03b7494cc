import CPreprocessor.Condition.Fault
import CPreprocessor.Token

/-!
The operator `defined`, resolved before macros are expanded so that its operand stays a name.
-/

namespace CPreprocessor

namespace Defined

/-- Whether `t` is the operator. -/
def isOperator (t : Token) : Bool := t.isIdentifier && t.text = "defined"

/-- The name at the start of tokens, and the tokens after it. -/
def name? (tokens : List Token) : Option (String × List Token) :=
  match tokens with
  | [] => none
  | t :: rest => if t.isIdentifier then some (t.text, rest) else none

/-- The name that the operator is applied to, with or without parentheses, and the tokens after the
operand. -/
def operand (tokens : List Token) : Except ConditionFault (String × List Token) :=
  match skipLayout tokens with
  | [] => .error .definedWithoutName
  | t :: rest =>
    if t.isPunctuator "(" then
      match name? (skipLayout rest) with
      | none => .error .definedWithoutName
      | some (name, after) =>
        match skipLayout after with
        | [] => .error .definedWithoutClose
        | close :: tail =>
          if close.isPunctuator ")" then .ok (name, tail) else .error .definedWithoutClose
    else
      match name? (t :: rest) with
      | none => .error .definedWithoutName
      | some found => .ok found

theorem length_of_name? {tokens rest : List Token} {name : String}
    (h : name? tokens = some (name, rest)) : rest.length < tokens.length := by
  unfold name? at h
  split at h
  · simp at h
  · split at h
    · simp only [Option.some.injEq, Prod.mk.injEq] at h
      simp [← h.2]
    · simp at h

theorem length_of_operand {tokens rest : List Token} {name : String}
    (h : operand tokens = .ok (name, rest)) : rest.length < tokens.length := by
  have h₁ := length_skipLayout_le tokens
  unfold operand at h
  split at h
  · simp at h
  · rename_i t ts hskip
    rw [hskip] at h₁
    split at h
    · split at h
      · simp at h
      · rename_i name' after hname
        have h₂ := length_of_name? hname
        have h₃ := length_skipLayout_le ts
        have h₄ := length_skipLayout_le after
        split at h
        · simp at h
        · rename_i close tail hclose
          rw [hclose] at h₄
          simp only [List.length_cons] at h₁ h₄
          split at h
          · simp only [Except.ok.injEq, Prod.mk.injEq] at h
            rw [← h.2]
            omega
          · simp at h
    · split at h
      · simp at h
      · rename_i found hname
        simp only [Except.ok.injEq] at h
        subst h
        exact Nat.lt_of_lt_of_le (length_of_name? hname) h₁

/-- The number that stands for the answer of the operator `t`. -/
def answer (t : Token) (isDefined : Bool) : Token where
  kind := .number
  text := if isDefined then "1" else "0"
  location := t.location

/-- The tokens with each application of the operator replaced by 1 or 0. -/
def resolve (isDefined : String → Bool) (tokens : List Token) :
    Except (Located ConditionFault) (List Token) :=
  match tokens with
  | [] => .ok []
  | t :: rest =>
    if isOperator t then
      match _hoperand : operand rest with
      | .error fault => .error ⟨fault, t.location⟩
      | .ok (name, after) => (resolve isDefined after).map (answer t (isDefined name) :: ·)
    else (resolve isDefined rest).map (t :: ·)
termination_by tokens.length
decreasing_by
  · have := length_of_operand _hoperand
    simp only [List.length_cons]
    omega
  · simp

end Defined

end CPreprocessor
