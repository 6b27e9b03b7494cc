import Mathlib.Logic.Function.Iterate
import CPreprocessor.Proofs.Except
import CPreprocessor.Proofs.Expansion.Run

/-!
# Expansion as a machine

`Expander.run` is total because its recursion descends. Here the same work is done by a machine
whose single step looks at one pending token and recurses on nothing: the expansion of an argument
suspends the expansion that needs it. The machine halts from every state, and from the start of an
expansion it halts with what `Expander.run` returns (`Expander.machine_halts`).
-/

namespace CPreprocessor

/-- An expansion that waits for the arguments of `invocation`. -/
structure Suspension where
  depth : Nat
  done : Progress
  invocation : Invocation
  /-- the arguments expanded so far, in order -/
  finished : List Progress
  /-- the indices of those still to be expanded -/
  remaining : List Nat

/-- A state of the machine: an expansion at work, `depth` arguments deep, on top of those that wait
for it, or the outcome of the outermost one. -/
inductive Machine
  | working (depth : Nat) (done : Progress) (pending : List Token) (waiting : List Suspension)
  | halted (outcome : Except ExpansionError Progress)

namespace Machine

open Expander

variable (e : Expander)

/-- Turns to the next argument of an invocation, or to its replacement when there is none left. -/
def proceed (w : Suspension) (waiting : List Suspension) : Machine :=
  match w.remaining with
  | [] =>
    match w.invocation.replacement
        (w.invocation.expandedIndices.zip (w.finished.map Progress.tokens)) with
    | .error error => .halted (.error error)
    | .ok body =>
      .working w.depth (w.done.invoke w.invocation.site.text w.finished)
        (body ++ w.invocation.rest) waiting
  | index :: others =>
    if e.exceeds (w.depth + 1) 0 then .halted (.error (e.tooDeep w.invocation))
    else .working (w.depth + 1) {} (w.invocation.argument index)
      ({ w with remaining := others } :: waiting)

/-- Hands a finished expansion to the one that waits for it. -/
def conclude (done : Progress) : List Suspension → Machine
  | [] => .halted (.ok done)
  | w :: waiting => proceed e { w with finished := w.finished ++ [done] } waiting

/-- Deals with the first pending token. -/
def step : Machine → Machine
  | .halted outcome => .halted outcome
  | .working _ done [] waiting => conclude e done waiting
  | .working depth done (t :: rest) waiting =>
    match e.turn t rest with
    | .error error => .halted (.error error)
    | .ok (.emit u) => .working depth (done.emit u) rest waiting
    | .ok (.invoke i) =>
      if e.exceeds depth i.hide.size then .halted (.error (e.tooDeep i))
      else proceed e ⟨depth, done, i, [], i.expandedIndices⟩ waiting

/-- The machine before the expansion of a list of tokens. -/
def start (tokens : List Token) : Machine :=
  .working 0 {} (tokens.filter fun t => t.kind ≠ .endOfInput) []

/-- Finitely many steps lead from one state to the other. -/
def Reaches (m m' : Machine) : Prop := ∃ n, (step e)^[n] m = m'

/-- What becomes of the machine when the expansion at work has an outcome. -/
def settle (waiting : List Suspension) : Except ExpansionError Progress → Machine
  | .error error => .halted (.error error)
  | .ok done => conclude e done waiting

variable {e} {m m₁ m₂ m₃ : Machine} {waiting : List Suspension}

theorem Reaches.refl : Reaches e m m := ⟨0, rfl⟩

theorem Reaches.trans (h₁ : Reaches e m₁ m₂) (h₂ : Reaches e m₂ m₃) : Reaches e m₁ m₃ := by
  obtain ⟨k, rfl⟩ := h₁
  obtain ⟨n, rfl⟩ := h₂
  exact ⟨n + k, Function.iterate_add_apply ..⟩

theorem Reaches.head (h : Reaches e (step e m₁) m₂) : Reaches e m₁ m₂ :=
  Reaches.trans ⟨1, rfl⟩ h

/-- The arguments of an invocation are expanded one after the other, if each of them is expanded
whatever waits for it. -/
theorem reaches_arguments {depth : Nat} {i : Invocation} (waiting : List Suspension)
    (hargument : ∀ index waiting, Reaches e (.working (depth + 1) {} (i.argument index) waiting)
      (settle e waiting (e.run (depth + 1) {} (i.argument index))))
    (done : Progress) (finished : List Progress) (remaining : List Nat) :
    Reaches e (proceed e ⟨depth, done, i, finished, remaining⟩ waiting)
      (match runArguments e depth i remaining with
        | .error error => .halted (.error error)
        | .ok inner => proceed e ⟨depth, done, i, finished ++ inner, []⟩ waiting) := by
  induction remaining generalizing finished with
  | nil =>
    rw [runArguments, mapM_nil_except]
    dsimp only
    rw [List.append_nil]
    exact .refl
  | cons index others ih =>
    rw [runArguments, mapM_cons_except, ← runArguments]
    by_cases hdeep : e.exceeds (depth + 1) 0
    · simp only [proceed, hdeep, if_true]
      exact .refl
    have hfirst := hargument index (⟨depth, done, i, finished, others⟩ :: waiting)
    rw [proceed]
    simp only [hdeep, Bool.false_eq_true, if_false]
    cases hrun : e.run (depth + 1) {} (i.argument index) with
    | error error =>
      rw [hrun] at hfirst
      exact hfirst
    | ok p =>
      rw [hrun] at hfirst
      have hothers := ih (finished ++ [p])
      cases hinner : runArguments e depth i others with
      | error error =>
        rw [hinner] at hothers
        exact hfirst.trans hothers
      | ok inner =>
        simp only [hinner, List.append_assoc] at hothers
        exact hfirst.trans hothers

/-- The machine where an expansion with an outcome comes to its end. -/
def ending (depth : Nat) (waiting : List Suspension) : Except ExpansionError Progress → Machine
  | .error error => .halted (.error error)
  | .ok done => .working depth done [] waiting

theorem reaches_settle {depth : Nat} (waiting : List Suspension)
    (outcome : Except ExpansionError Progress) :
    Reaches e (ending depth waiting outcome) (settle e waiting outcome) := by
  cases outcome with
  | error error => exact .refl
  | ok done => exact .head .refl

/-- The machine comes to the end that `Expander.run` comes to, whatever waits for the expansion at
work. -/
theorem reaches_ending (e : Expander) (depth : Nat) (done : Progress) (pending : List Token) :
    ∀ waiting, Reaches e (.working depth done pending waiting)
      (ending depth waiting (e.run depth done pending)) := by
  induction depth, done, pending using run_induction with
  | nil depth done => exact fun waiting => .refl
  | failed depth done t rest error hturn =>
    intro waiting
    refine .head ?_
    rw [step, hturn]
    exact .refl
  | emit depth done t rest u hturn ih =>
    intro waiting
    refine .head ?_
    rw [step, hturn]
    exact ih waiting
  | deep depth done t rest i hturn hdeep =>
    intro waiting
    refine .head ?_
    simp only [step, hturn, hdeep, if_true]
    exact .refl
  | argument depth done t rest i error hturn hdeep hinner ih =>
    intro waiting
    have harguments := reaches_arguments waiting
      (fun index waiting => (ih index waiting).trans (reaches_settle ..)) done [] i.expandedIndices
    rw [hinner] at harguments
    refine .head ?_
    simp only [step, hturn, hdeep, Bool.false_eq_true, if_false]
    exact harguments
  | replacement depth done t rest i inner error hturn hdeep hinner hbody ih =>
    intro waiting
    have harguments := reaches_arguments waiting
      (fun index waiting => (ih index waiting).trans (reaches_settle ..)) done [] i.expandedIndices
    rw [hinner] at harguments
    refine .head ?_
    simp only [step, hturn, hdeep, Bool.false_eq_true, if_false]
    refine harguments.trans ?_
    simp only [proceed, List.nil_append, hbody]
    exact .refl
  | invoke depth done t rest i inner body hturn hdeep hinner hbody iha ih =>
    intro waiting
    have harguments := reaches_arguments waiting
      (fun index waiting => (iha index waiting).trans (reaches_settle ..)) done [] i.expandedIndices
    rw [hinner] at harguments
    refine .head ?_
    simp only [step, hturn, hdeep, Bool.false_eq_true, if_false]
    refine harguments.trans ?_
    simp only [proceed, List.nil_append, hbody]
    exact ih waiting

/-- The machine does what `Expander.run` does, whatever waits for the expansion at work. -/
theorem reaches_run (e : Expander) (depth : Nat) (done : Progress) (pending : List Token)
    (waiting : List Suspension) : Reaches e (.working depth done pending waiting)
      (settle e waiting (e.run depth done pending)) :=
  (reaches_ending e depth done pending waiting).trans (reaches_settle ..)

theorem iterate_step_halted (n : Nat) (outcome : Except ExpansionError Progress) :
    (step e)^[n] (.halted outcome) = .halted outcome := Function.iterate_fixed rfl n

/-- A machine that has halted has the outcome of the expansion, however many steps it was given. -/
theorem expand_of_halted {tokens : List Token} {outcome : Except ExpansionError Progress} (n : Nat)
    (h : (step e)^[n] (start tokens) = .halted outcome) :
    e.expand tokens = outcome.map fun p =>
      ⟨p.tokens.filter fun t => t.kind ≠ .placemarker, p.trace.reverse⟩ := by
  obtain ⟨k, hk⟩ := reaches_run e 0 {} (tokens.filter fun t => t.kind ≠ .endOfInput) []
  have hsettle : settle e [] (e.run 0 {} (tokens.filter fun t => t.kind ≠ .endOfInput)) =
      .halted (e.run 0 {} (tokens.filter fun t => t.kind ≠ .endOfInput)) := by
    cases e.run 0 {} (tokens.filter fun t => t.kind ≠ .endOfInput) <;> rfl
  rw [hsettle, ← start] at hk
  have hboth : (step e)^[n + k] (start tokens) = (step e)^[k + n] (start tokens) := by
    rw [Nat.add_comm]
  rw [Function.iterate_add_apply, Function.iterate_add_apply, hk, h, iterate_step_halted,
    iterate_step_halted] at hboth
  rw [expand, Machine.halted.inj hboth]

/-- The expansions that wait for a finished one are finished one after the other. -/
theorem reaches_halted_of_conclude (e : Expander) (done : Progress) (waiting : List Suspension) :
    ∃ outcome, Reaches e (conclude e done waiting) (.halted outcome) := by
  induction waiting generalizing done with
  | nil => exact ⟨.ok done, .refl⟩
  | cons w waiting ih =>
    have harguments := reaches_arguments waiting
      (fun index => reaches_run e (w.depth + 1) {} (w.invocation.argument index))
      w.done (w.finished ++ [done]) w.remaining
    cases hinner : runArguments e w.depth w.invocation w.remaining with
    | error error =>
      rw [hinner] at harguments
      exact ⟨.error error, harguments⟩
    | ok inner =>
      simp only [hinner] at harguments
      generalize hall : w.finished ++ [done] ++ inner = all at harguments
      refine (Exists.imp fun _ => harguments.trans) ?_
      simp only [proceed]
      cases w.invocation.replacement
          (w.invocation.expandedIndices.zip (all.map Progress.tokens)) with
      | error error => exact ⟨_, .refl⟩
      | ok body =>
        have hrun := reaches_run e w.depth (w.done.invoke w.invocation.site.text all)
          (body ++ w.invocation.rest) waiting
        refine (Exists.imp fun _ => hrun.trans) ?_
        cases e.run w.depth (w.done.invoke w.invocation.site.text all)
            (body ++ w.invocation.rest) with
        | error error => exact ⟨_, .refl⟩
        | ok p => exact ih p

/-- The machine halts from every state. -/
theorem exists_reaches_halted (e : Expander) (m : Machine) :
    ∃ outcome, Reaches e m (.halted outcome) := by
  cases m with
  | halted outcome => exact ⟨outcome, .refl⟩
  | working depth done pending waiting =>
    have hrun := reaches_run e depth done pending waiting
    refine (Exists.imp fun _ => hrun.trans) ?_
    cases e.run depth done pending with
    | error error => exact ⟨_, .refl⟩
    | ok p => exact reaches_halted_of_conclude e p waiting

end Machine

/-- For every table, every limit and all tokens, whatever they hide, expansion takes finitely many
steps, and it ends with the tokens or the error that `Expander.expand` returns. No state of the
machine, reachable or not, starts an endless run. -/
theorem Expander.machine_halts (e : Expander) :
    (∀ m : Machine, ∃ n outcome, (Machine.step e)^[n] m = .halted outcome) ∧
    ∀ tokens : List Token, ∃ n outcome,
      (Machine.step e)^[n] (Machine.start tokens) = .halted outcome ∧
      e.expand tokens = outcome.map fun p =>
        ⟨p.tokens.filter fun t => t.kind ≠ .placemarker, p.trace.reverse⟩ := by
  constructor
  · intro m
    obtain ⟨outcome, n, hn⟩ := Machine.exists_reaches_halted e m
    exact ⟨n, outcome, hn⟩
  · intro tokens
    obtain ⟨n, hn⟩ := Machine.reaches_run e 0 {} (tokens.filter fun t => t.kind ≠ .endOfInput) []
    refine ⟨n, e.run 0 {} (tokens.filter fun t => t.kind ≠ .endOfInput), ?_, rfl⟩
    rw [Machine.start, hn]
    cases e.run 0 {} (tokens.filter fun t => t.kind ≠ .endOfInput) <;> rfl

/-! ## Tokens to try the machine on -/

/-- A word in the first line. -/
def wordAt (text : String) (column : Int) : Token :=
  { kind := .identifier, text, location := ⟨"<input>", 1, column⟩ }

/-- A mark in the first line. -/
def markAt (text : String) (column : Int) : Token :=
  { kind := .punctuator, text, location := ⟨"<input>", 1, column⟩ }

/-- The end of the input in the first line. -/
def endAt (column : Int) : Token :=
  { kind := .endOfInput, text := "", location := ⟨"<input>", 1, column⟩ }

end CPreprocessor
