import Mathlib
import CPreprocessor.Proofs.Expansion.Machine

/-!
# The limit on the depth of an expansion

A higher limit lets an expansion go on where a lower one stops it, and changes nothing else: an
expansion that ends in anything but the error for its limit ends in the same way at every higher limit
(`Expander.expand_withLimit`). The limit has no say in a turn, so two runs at different limits stay side
by side until the lower one is exceeded (`Expander.run_withLimit`).
-/

namespace CPreprocessor

namespace Expander

/-- The expander with another limit. -/
def withLimit (e : Expander) (limit : Int) : Expander := { e with limit }

/-- Whether an outcome is the error of an expansion that nests too deeply. -/
def IsTooDeep {α : Type} (outcome : Except ExpansionError α) : Prop :=
  ∃ error, outcome = .error error ∧ error.fault.category = .recursionLimit

variable {e : Expander} {limit : Int} {depth : Nat} {i : Invocation}

theorem not_isTooDeep_ok {α : Type} (a : α) : ¬ IsTooDeep (.ok a : Except ExpansionError α) := by
  rintro ⟨error, herror, -⟩
  cases herror

theorem IsTooDeep.error_of_eq {α β : Type} {outcome : Except ExpansionError α}
    {error : ExpansionError} (h : IsTooDeep outcome) (heq : outcome = .error error) :
    IsTooDeep (.error error : Except ExpansionError β) := by
  obtain ⟨own, hown, hcategory⟩ := h
  obtain rfl : own = error := Except.error.inj (hown.symm.trans heq)
  exact ⟨own, rfl, hcategory⟩

theorem isTooDeep_map_iff {α β : Type} {f : α → β} {outcome : Except ExpansionError α} :
    IsTooDeep (outcome.map f) ↔ IsTooDeep outcome := by
  simp only [IsTooDeep, map_eq_error_iff]

theorem isTooDeep_tooDeep {α : Type} (e : Expander) (i : Invocation) :
    IsTooDeep (.error (e.tooDeep i) : Except ExpansionError α) := ⟨_, rfl, rfl⟩

/-! ## One step at two limits -/

theorem exceeds_withLimit {size : Nat} (hle : e.limit ≤ limit) (h : e.exceeds depth size = false) :
    (e.withLimit limit).exceeds depth size = false := by
  obtain ⟨hdepth, hsize⟩ := Bool.or_eq_false_iff.mp h
  have hkept : ∀ {n : Nat}, decide (e.limit < n) = false → decide (limit < n) = false := fun hn =>
    decide_eq_false fun hlt => of_decide_eq_false hn (Int.lt_of_le_of_lt hle hlt)
  exact Bool.or_eq_false_iff.mpr ⟨hkept hdepth, hkept hsize⟩

/-- The arguments of an invocation are expanded alike, up to one that nests too deeply. -/
theorem runArguments_withLimit (hle : e.limit ≤ limit)
    (h : ∀ index, IsTooDeep (e.run (depth + 1) {} (i.argument index)) ∨
      (e.withLimit limit).run (depth + 1) {} (i.argument index) =
        e.run (depth + 1) {} (i.argument index)) (indices : List Nat) :
    IsTooDeep (runArguments e depth i indices) ∨
      runArguments (e.withLimit limit) depth i indices = runArguments e depth i indices := by
  induction indices with
  | nil => exact .inr rfl
  | cons index indices ih =>
    rw [runArguments, runArguments, mapM_cons_except, mapM_cons_except, ← runArguments, ← runArguments]
    cases hdeep : e.exceeds (depth + 1) 0 with
    | true =>
      rw [if_pos rfl]
      exact .inl (isTooDeep_tooDeep e i)
    | false =>
      rw [exceeds_withLimit hle hdeep, if_neg Bool.false_ne_true, if_neg Bool.false_ne_true]
      rcases h index with hfirst | hfirst
      · obtain ⟨error, herror, hcategory⟩ := hfirst
        rw [herror]
        exact .inl ⟨error, rfl, hcategory⟩
      · rw [hfirst]
        cases e.run (depth + 1) {} (i.argument index) with
        | error error => exact .inr rfl
        | ok p => exact ih.imp isTooDeep_map_iff.mpr (congrArg (Except.map (p :: ·)))

/-! ## Runs at two limits -/

/-- A run that does not nest too deeply for its limit is the same at a higher limit. -/
theorem run_withLimit (hle : e.limit ≤ limit) (depth : Nat) (done : Progress) (pending : List Token) :
    IsTooDeep (e.run depth done pending) ∨
      (e.withLimit limit).run depth done pending = e.run depth done pending := by
  induction depth, done, pending using run_induction with
  | nil depth done => exact .inr run_nil
  | failed depth done t rest error hturn => exact .inr (run_of_error hturn)
  | emit depth done t rest u hturn ih =>
    have hturn' : (e.withLimit limit).turn t rest = .ok (.emit u) := hturn
    rwa [run_of_emit hturn']
  | deep depth done t rest i hturn hdeep => exact .inl (isTooDeep_tooDeep e i)
  | argument depth done t rest i error hturn hdeep hinner ih =>
    rcases runArguments_withLimit hle ih i.expandedIndices with harguments | harguments
    · exact .inl (harguments.error_of_eq hinner)
    · exact .inr (run_of_argument (e := e.withLimit limit) hturn (exceeds_withLimit hle hdeep)
        (harguments.trans hinner))
  | replacement depth done t rest i inner error hturn hdeep hinner hbody ih =>
    rcases runArguments_withLimit hle ih i.expandedIndices with harguments | harguments
    · exact absurd (hinner ▸ harguments) (not_isTooDeep_ok inner)
    · exact .inr (run_of_replacement (e := e.withLimit limit) hturn (exceeds_withLimit hle hdeep)
        (harguments.trans hinner) hbody)
  | invoke depth done t rest i inner body hturn hdeep hinner hbody iharguments ih =>
    rcases runArguments_withLimit hle iharguments i.expandedIndices with harguments | harguments
    · exact absurd (hinner ▸ harguments) (not_isTooDeep_ok inner)
    · rwa [run_of_body (e := e.withLimit limit) hturn (exceeds_withLimit hle hdeep)
        (harguments.trans hinner) hbody]

/-- An expansion that ends in anything but the error for its limit, be it in tokens and a trace or in
another error, ends in the same way at every higher limit. -/
theorem expand_withLimit (hle : e.limit ≤ limit) (tokens : List Token)
    (h : ¬ IsTooDeep (e.expand tokens)) : (e.withLimit limit).expand tokens = e.expand tokens := by
  have hrun := run_withLimit hle 0 {} (tokens.filter fun t => t.kind ≠ .endOfInput)
  rw [expand, isTooDeep_map_iff] at h
  rw [expand, hrun.resolve_left h, expand]

end Expander

/-! ## A limit that is just high enough -/

/-- The macro that `#define twice(x) x x` defines, without the blank. -/
def twiceTable : Table :=
  Table.define ∅
    { name := "twice", shape := .function ["x"] false, replacement := [wordAt "x" 10, wordAt "x" 12] }

/-- The tokens of `twice(twice(a))`. -/
def twiceNested : List Token :=
  [wordAt "twice" 1, markAt "(" 6, wordAt "twice" 7, markAt "(" 12, wordAt "a" 13, markAt ")" 14,
    markAt ")" 15]

/-- The argument of an argument is expanded at a limit of two, and so it is at the usual limit. -/
theorem Expander.expand_withLimit_nested :
    (2 : Int) ≤ 200 ∧ ¬ IsTooDeep (Expander.expand { table := twiceTable, limit := 2 } twiceNested) ∧
    Expander.expand { table := twiceTable, limit := 200 } twiceNested =
      .ok ⟨List.replicate 4 { wordAt "a" 13 with hide := HideSet.insert ∅ "twice" },
        ["twice", "twice"]⟩ := by
  have hexpand : Expander.expand { table := twiceTable, limit := 2 } twiceNested =
      .ok ⟨List.replicate 4 { wordAt "a" 13 with hide := HideSet.insert ∅ "twice" },
        ["twice", "twice"]⟩ := by
    have hhalted : (Machine.step { table := twiceTable, limit := 2 })^[12] (Machine.start twiceNested) =
        .halted (.ok ⟨List.replicate 4 { wordAt "a" 13 with hide := HideSet.insert ∅ "twice" },
          ["twice", "twice"]⟩) := by cbv
    exact Machine.expand_of_halted 12 hhalted
  have hle : (2 : Int) ≤ 200 := by decide
  have hroom : ¬ IsTooDeep (Expander.expand { table := twiceTable, limit := 2 } twiceNested) :=
    hexpand ▸ not_isTooDeep_ok _
  have hhigher : Expander.expand { table := twiceTable, limit := 200 } twiceNested =
      Expander.expand { table := twiceTable, limit := 2 } twiceNested :=
    Expander.expand_withLimit (e := { table := twiceTable, limit := 2 }) hle twiceNested hroom
  exact ⟨hle, hroom, hhigher.trans hexpand⟩

end CPreprocessor
