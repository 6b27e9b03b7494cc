import CPreprocessor.Expansion.Expander

/-!
# The cases of an expansion

One equation of `Expander.run` for each thing that can happen to the first pending token, and the
induction that goes with them (`Expander.run_induction`).
-/

namespace CPreprocessor

theorem lookup_map_snd {α β : Type} (f : α → β) (key : Nat) (entries : List (Nat × α)) :
    (entries.map (Prod.map id f)).lookup key = (entries.lookup key).map f := by
  induction entries with
  | nil => rfl
  | cons entry entries ih =>
    obtain ⟨own, a⟩ := entry
    rw [List.map_cons, Prod.map_apply, List.lookup_cons, List.lookup_cons, id]
    split
    · rfl
    · exact ih

namespace Invocation

/-- What an invocation puts in the place of its parameters. -/
def filling (i : Invocation) (inner : List Progress) : Filling where
  written := i.argument
  expanded := fun index => ((i.expandedIndices.zip (inner.map Progress.tokens)).lookup index).getD []
  site := i.site.location

theorem replacement_eq (i : Invocation) (inner : List Progress) :
    i.replacement (i.expandedIndices.zip (inner.map Progress.tokens)) =
      match (i.filling inner).fill i.definition.template with
      | .error fault => .error (i.error fault)
      | .ok tokens => .ok (tokens.map (·.hideBy i.hide)) := rfl

end Invocation

namespace Expander

variable {e : Expander} {depth : Nat} {done : Progress} {t : Token} {rest : List Token}

/-- The expansions of some arguments of an invocation, up to the first that fails. -/
def runArguments (e : Expander) (depth : Nat) (i : Invocation) (indices : List Nat) :
    Except ExpansionError (List Progress) :=
  indices.mapM fun index =>
    if e.exceeds (depth + 1) 0 then .error (e.tooDeep i)
    else e.run (depth + 1) {} (i.argument index)

theorem run_nil : e.run depth done [] = .ok done := by rw [run]

theorem run_of_error {error : ExpansionError} (h : e.turn t rest = .error error) :
    e.run depth done (t :: rest) = .error error := by
  rw [run]
  split <;> simp_all

theorem run_of_emit {u : Token} (h : e.turn t rest = .ok (.emit u)) :
    e.run depth done (t :: rest) = e.run depth (done.emit u) rest := by
  rw [run]
  split <;> simp_all

theorem run_of_invoke {i : Invocation} (h : e.turn t rest = .ok (.invoke i)) :
    e.run depth done (t :: rest) =
      if e.exceeds depth i.hide.size then .error (e.tooDeep i)
      else
        match runArguments e depth i i.expandedIndices with
        | .error error => .error error
        | .ok inner =>
          match i.replacement (i.expandedIndices.zip (inner.map Progress.tokens)) with
          | .error error => .error error
          | .ok body => e.run depth (done.invoke i.site.text inner) (body ++ i.rest) := by
  rw [run]
  split
  · simp_all
  · simp_all
  · rename_i j hj
    obtain rfl : i = j := by simpa [hj] using h.symm
    split
    · rfl
    change (match runArguments e depth i i.expandedIndices with
      | .error error => _
      | .ok inner => _) = _
    cases runArguments e depth i i.expandedIndices with
    | error error => rfl
    | ok inner =>
      dsimp only
      split <;> simp_all

section
variable {i : Invocation} (h : e.turn t rest = .ok (.invoke i))
include h

theorem run_of_deep (hdeep : e.exceeds depth i.hide.size = true) :
    e.run depth done (t :: rest) = .error (e.tooDeep i) := by
  rw [run_of_invoke h, if_pos hdeep]

variable (hdeep : e.exceeds depth i.hide.size = false)
include hdeep

theorem run_of_argument {error : ExpansionError}
    (hinner : runArguments e depth i i.expandedIndices = .error error) :
    e.run depth done (t :: rest) = .error error := by
  rw [run_of_invoke h, hdeep, if_neg Bool.false_ne_true, hinner]

variable {inner : List Progress} (hinner : runArguments e depth i i.expandedIndices = .ok inner)
include hinner

theorem run_of_replacement {error : ExpansionError}
    (hbody : i.replacement (i.expandedIndices.zip (inner.map Progress.tokens)) = .error error) :
    e.run depth done (t :: rest) = .error error := by
  rw [run_of_invoke h, hdeep, if_neg Bool.false_ne_true, hinner]
  dsimp only
  rw [hbody]

theorem run_of_body {body : List Token}
    (hbody : i.replacement (i.expandedIndices.zip (inner.map Progress.tokens)) = .ok body) :
    e.run depth done (t :: rest) =
      e.run depth (done.invoke i.site.text inner) (body ++ i.rest) := by
  rw [run_of_invoke h, hdeep, if_neg Bool.false_ne_true, hinner]
  dsimp only
  rw [hbody]

end

/-- Induction along an expansion, over the expansions of arguments as well. -/
@[elab_as_elim]
theorem run_induction {e : Expander}
    {motive : Nat → Progress → List Token → Except ExpansionError Progress → Prop}
    (nil : ∀ depth done, motive depth done [] (.ok done))
    (failed : ∀ depth done t rest error, e.turn t rest = .error error →
      motive depth done (t :: rest) (.error error))
    (emit : ∀ depth done t rest u, e.turn t rest = .ok (.emit u) →
      motive depth (done.emit u) rest (e.run depth (done.emit u) rest) →
      motive depth done (t :: rest) (e.run depth (done.emit u) rest))
    (deep : ∀ depth done t rest i, e.turn t rest = .ok (.invoke i) →
      e.exceeds depth i.hide.size = true → motive depth done (t :: rest) (.error (e.tooDeep i)))
    (argument : ∀ depth done t rest i error, e.turn t rest = .ok (.invoke i) →
      e.exceeds depth i.hide.size = false →
      runArguments e depth i i.expandedIndices = .error error →
      (∀ index, motive (depth + 1) {} (i.argument index)
        (e.run (depth + 1) {} (i.argument index))) →
      motive depth done (t :: rest) (.error error))
    (replacement : ∀ depth done t rest i inner error, e.turn t rest = .ok (.invoke i) →
      e.exceeds depth i.hide.size = false →
      runArguments e depth i i.expandedIndices = .ok inner →
      i.replacement (i.expandedIndices.zip (inner.map Progress.tokens)) = .error error →
      (∀ index, motive (depth + 1) {} (i.argument index)
        (e.run (depth + 1) {} (i.argument index))) →
      motive depth done (t :: rest) (.error error))
    (invoke : ∀ depth done t rest i inner body, e.turn t rest = .ok (.invoke i) →
      e.exceeds depth i.hide.size = false →
      runArguments e depth i i.expandedIndices = .ok inner →
      i.replacement (i.expandedIndices.zip (inner.map Progress.tokens)) = .ok body →
      (∀ index, motive (depth + 1) {} (i.argument index)
        (e.run (depth + 1) {} (i.argument index))) →
      motive depth (done.invoke i.site.text inner) (body ++ i.rest)
        (e.run depth (done.invoke i.site.text inner) (body ++ i.rest)) →
      motive depth done (t :: rest)
        (e.run depth (done.invoke i.site.text inner) (body ++ i.rest)))
    (depth : Nat) (done : Progress) (pending : List Token) :
    motive depth done pending (e.run depth done pending) := by
  induction depth, done, pending using run.induct_unfolding e with
  | case1 depth done => exact nil depth done
  | case2 depth done t rest error hturn => exact failed depth done t rest error hturn
  | case3 depth done t rest u hturn ih => exact emit depth done t rest u hturn ih
  | case4 depth done t rest i hturn hdeep => exact deep depth done t rest i hturn hdeep
  | case5 depth done t rest i hturn hdeep inner error hinner ih =>
    exact argument depth done t rest i error hturn (by simpa using hdeep)
      (by simp only [inner, dite_eq_ite] at hinner; exact hinner) ih
  | case6 depth done t rest i hturn hdeep inner inner' hinner error hbody ih =>
    exact replacement depth done t rest i inner' error hturn (by simpa using hdeep)
      (by simp only [inner, dite_eq_ite] at hinner; exact hinner) hbody ih
  | case7 depth done t rest i hturn hdeep inner inner' hinner body hbody iha ih =>
    exact invoke depth done t rest i inner' body hturn (by simpa using hdeep)
      (by simp only [inner, dite_eq_ite] at hinner; exact hinner) hbody iha ih

end Expander

end CPreprocessor
