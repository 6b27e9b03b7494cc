import CPreprocessor.Condition.Defined
import CPreprocessor.Proofs.Except

/-!
# Answered operators

What the resolution of `defined` leaves of the tokens that it is given, and the same resolution on tokens
without layout (`Defined.answers`), where the operand of an operator is what stands right behind it.
-/

namespace CPreprocessor

namespace Defined

theorem suffix_of_name? {tokens after : List Token} {name : String}
    (h : name? tokens = some (name, after)) : after <:+ tokens := by
  unfold name? at h
  split at h
  · cases h
  split at h
  · cases h
    exact List.suffix_cons ..
  · cases h

theorem suffix_of_operand {tokens after : List Token} {name : String}
    (h : operand tokens = .ok (name, after)) : after <:+ tokens := by
  have hskip : ∀ tokens, skipLayout tokens <:+ tokens := fun _ => List.dropWhile_suffix _
  unfold operand at h
  split at h
  · cases h
  rename_i t ts heq
  have hts : t :: ts <:+ tokens := heq ▸ hskip tokens
  split at h
  · split at h
    · cases h
    rename_i hfound
    have hname := (suffix_of_name? hfound).trans ((hskip ts).trans ((List.suffix_cons ..).trans hts))
    split at h
    · cases h
    rename_i close tail hclose
    have hclose : close :: tail <:+ _ := hclose ▸ hskip _
    split at h
    · cases h
      exact (List.suffix_cons ..).trans (hclose.trans hname)
    · cases h
  · split at h
    · cases h
    · rename_i hfound
      cases h
      exact (suffix_of_name? hfound).trans hts

/-- Besides the tokens that it is given, the resolution of `defined` leaves answers. -/
theorem mem_of_resolve {isDefined : String → Bool} {rest resolved : List Token} {t : Token}
    (h : resolve isDefined rest = .ok resolved) (ht : t ∈ resolved) :
    t ∈ rest ∨ ∃ u ∈ rest, ∃ answered, t = answer u answered := by
  fun_induction resolve isDefined rest generalizing resolved with
  | case1 =>
    cases h
    cases ht
  | case2 => cases h
  | case3 u rest hoperator name after hafter ih =>
    obtain ⟨tokens, htokens, rfl⟩ := map_eq_ok_iff.mp h
    have hsub : ∀ v ∈ after, v ∈ u :: rest := fun v hv =>
      List.mem_cons_of_mem u ((suffix_of_operand hafter).subset hv)
    rcases List.mem_cons.mp ht with rfl | ht
    · exact .inr ⟨u, List.mem_cons_self, _, rfl⟩
    · exact (ih htokens ht).imp (hsub t) fun ⟨v, hv, heq⟩ => ⟨v, hsub v hv, heq⟩
  | case4 u rest hoperator ih =>
    obtain ⟨tokens, htokens, rfl⟩ := map_eq_ok_iff.mp h
    rcases List.mem_cons.mp ht with rfl | ht
    · exact .inl List.mem_cons_self
    · exact (ih htokens ht).imp (List.mem_cons_of_mem u) fun ⟨v, hv, heq⟩ =>
        ⟨v, List.mem_cons_of_mem u hv, heq⟩

/-! ## Tokens without layout -/

/-- The name that the operator is applied to, and the tokens after the operand. -/
def plainOperand : List Token → Option (String × List Token)
  | [] => none
  | t :: rest =>
    if t.isPunctuator "(" then
      match rest with
      | name :: closed :: after =>
        if name.isIdentifier && closed.isPunctuator ")" then some (name.text, after) else none
      | _ => none
    else if t.isIdentifier then some (t.text, rest)
    else none

theorem length_of_plainOperand {tokens after : List Token} {name : String}
    (h : plainOperand tokens = some (name, after)) : after.length < tokens.length := by
  unfold plainOperand at h
  split at h
  · cases h
  split at h
  · split at h
    · split at h
      · cases h
        simp only [List.length_cons]
        omega
      · cases h
    · cases h
  · split at h
    · cases h
      exact Nat.lt_succ_self _
    · cases h

/-- The tokens with each application of the operator answered. -/
def answers (isDefined : String → Bool) (tokens : List Token) : Option (List Token) :=
  match tokens with
  | [] => some []
  | t :: rest =>
    if isOperator t then
      match _hoperand : plainOperand rest with
      | none => none
      | some (name, after) => (answers isDefined after).map (answer t (isDefined name) :: ·)
    else (answers isDefined rest).map (t :: ·)
termination_by tokens.length
decreasing_by
  · have := length_of_plainOperand _hoperand
    rw [List.length_cons]
    omega
  · exact Nat.lt_succ_self _

section
variable {isDefined : String → Bool} {t : Token} {rest : List Token}

theorem answers_nil : answers isDefined [] = some [] := by
  rw [answers]

theorem answers_cons (h : isOperator t = false) :
    answers isDefined (t :: rest) = (answers isDefined rest).map (t :: ·) := by
  rw [answers, if_neg (Bool.eq_false_iff.mp h)]

theorem answers_operator (h : isOperator t = true) :
    answers isDefined (t :: rest) =
      (plainOperand rest).bind fun (name, after) =>
        (answers isDefined after).map (answer t (isDefined name) :: ·) := by
  rw [answers, if_pos h]
  split
  · rename_i hnone
    rw [hnone]
    rfl
  · rename_i hsome
    rw [hsome]
    rfl

/-- Only of no tokens nothing is left. -/
theorem answers_eq_some_nil_iff {tokens : List Token} :
    answers isDefined tokens = some [] ↔ tokens = [] := by
  refine ⟨fun h => ?_, fun h => by rw [h, answers_nil]⟩
  cases tokens with
  | nil => rfl
  | cons t rest =>
    cases hoperator : isOperator t with
    | false =>
      rw [answers_cons hoperator] at h
      obtain ⟨_, -, h⟩ := Option.map_eq_some_iff.mp h
      cases h
    | true =>
      rw [answers_operator hoperator] at h
      obtain ⟨_, -, h⟩ := Option.bind_eq_some_iff.mp h
      obtain ⟨_, -, h⟩ := Option.map_eq_some_iff.mp h
      cases h

end

end Defined

end CPreprocessor
