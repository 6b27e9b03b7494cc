import CPreprocessor.Proofs.Condition.Reading
import CPreprocessor.Proofs.Except

/-!
# The descent of the evaluator

Each function of the evaluator by one equation, with the proofs that make it terminate left out, what
it sees of the tokens that come next, and the induction that goes with the calls of all of them
(`Part.descent`).
-/

namespace CPreprocessor

namespace Evaluator

/-! ## The evaluator without its proofs -/

section
variable (e : Evaluator) (m : Mode) (c : Cursor)

def readConditional : Except Failure (Value × Cursor) :=
  (e.conditional m c).map fun o => (o.value, o.next)

def readOperators (level : Nat) : Except Failure (Value × Cursor) :=
  (e.operators level m c).map fun o => (o.value, o.next)

def readMore (level : Nat) (left : Value) : Except Failure (Value × Cursor) :=
  (e.more level left m c).map fun o => (o.value, o.next)

def readUnary : Except Failure (Value × Cursor) :=
  (e.unary m c).map fun o => (o.value, o.next)

def readPrimary : Except Failure (Value × Cursor) :=
  (e.primary m c).map fun o => (o.value, o.next)

def readDefined (keyword : Location) : Except Failure (Value × Cursor) :=
  (e.applyDefined keyword c).map fun o => (o.value, o.next)

theorem readConditional_eq :
    e.readConditional m c =
      match e.readOperators m c 0 with
      | .error failure => .error failure
      | .ok (condition, c₁) =>
        if c₁.at? "?" then
          if m.nesting = 0 then .error (c₁.fail .nestedTooDeeply e.location)
          else
            let inner := { m with nesting := m.nesting - 1 }
            match e.readConditional { inner with live := m.live && condition.truthy } c₁.advance with
            | .error failure => .error failure
            | .ok (whenTrue, c₃) =>
              if c₃.at? ":" then
                match e.readConditional { inner with live := m.live && !condition.truthy }
                  c₃.advance with
                | .error failure => .error failure
                | .ok (whenFalse, c₅) =>
                  let chosen := if condition.truthy then whenTrue else whenFalse
                  .ok (.wrap chosen.value (whenTrue.unsigned || whenFalse.unsigned), c₅)
              else .error (c₃.fail .expectedColon (e.place c₃))
        else .ok (condition, c₁) := by
  rw [readConditional, conditional, readOperators]
  cases e.operators 0 m c with
  | error failure => rfl
  | ok o =>
    obtain ⟨condition, c₁, h₁⟩ := o
    by_cases hmark : c₁.at? "?" = true
    · by_cases hnesting : m.nesting = 0
      · simp [Except.map, hmark, hnesting]
      simp only [Except.map, hmark, hnesting, if_true, if_false, dif_pos, readConditional]
      cases e.conditional _ c₁.advance with
      | error failure => rfl
      | ok o =>
        obtain ⟨whenTrue, c₃, h₃⟩ := o
        by_cases hcolon : c₃.at? ":" = true
        · simp only [hcolon, if_true, dif_pos]
          cases e.conditional _ c₃.advance with
          | error failure => rfl
          | ok o => rfl
        · simp [hcolon]
    · simp [Except.map, hmark]

theorem readOperators_eq (level : Nat) :
    e.readOperators m c level =
      if level < BinaryOperator.levels then
        match e.readOperators m c (level + 1) with
        | .error failure => .error failure
        | .ok (left, c₁) => e.readMore m c₁ level left
      else e.readUnary m c := by
  rw [readOperators, operators]
  split
  · rw [readOperators]
    cases e.operators (level + 1) m c with
    | error failure => rfl
    | ok o =>
      obtain ⟨left, c₁, h₁⟩ := o
      simp only [Except.map, readMore]
      cases e.more level left m c₁ with
      | error failure => rfl
      | ok o => rfl
  · rfl

theorem readMore_eq (level : Nat) (left : Value) :
    e.readMore m c level left =
      match c.operator? level with
      | none => .ok (left, c)
      | some (op, place) =>
        match e.readOperators { m with live := m.live && op.evaluatesRight left } c.advance
          (level + 1) with
        | .error failure => .error failure
        | .ok (right, c₂) =>
          match (if m.live then op.apply left right else .ok (op.skip left right)) with
          | .error cause => .error (c₂.fail cause place)
          | .ok value => e.readMore m c₂ level value := by
  rw [readMore, more]
  split
  · rename_i h
    conv => rhs; rw [h]
    rfl
  · rename_i op place h
    conv => rhs; rw [h]
    simp only [readOperators]
    cases e.operators (level + 1) _ c.advance with
    | error failure => rfl
    | ok o =>
      obtain ⟨right, c₂, h₂⟩ := o
      simp only [Except.map]
      cases (if m.live then op.apply left right else .ok (op.skip left right)) with
      | error cause => rfl
      | ok value =>
        simp only [readMore]
        cases e.more level value m c₂ with
        | error failure => rfl
        | ok o => rfl

theorem readUnary_eq :
    e.readUnary m c =
      match c.unary? with
      | some op =>
        if m.nesting = 0 then .error (c.fail .nestedTooDeeply e.location)
        else
          match e.readUnary { m with nesting := m.nesting - 1 } c.advance with
          | .error failure => .error failure
          | .ok (value, c₂) => .ok (op.apply value, c₂)
      | none => e.readPrimary m c := by
  rw [readUnary, unary]
  split
  · rename_i op h
    conv => rhs; rw [h]
    by_cases hnesting : m.nesting = 0
    · simp [Except.map, hnesting]
    · simp only [hnesting, if_false, readUnary]
      cases e.unary _ c.advance with
      | error failure => rfl
      | ok o => rfl
  · rename_i h
    conv => rhs; rw [h]
    rfl

theorem readDefined_eq (keyword : Location) :
    e.readDefined c keyword =
      let opened := if c.at? "(" then c.advance else c
      match opened.rest.head?.filter Token.isIdentifier with
      | none => .error (c.fail .definedWithoutName keyword)
      | some name =>
        if c.at? "(" then
          if opened.advance.at? ")" then
            .ok (.ofBool (e.isDefined name.text), opened.advance.advance)
          else .error (c.fail .definedWithoutClose (e.place opened.advance))
        else .ok (.ofBool (e.isDefined name.text), opened.advance) := by
  rw [readDefined, applyDefined]
  simp only
  generalize (if c.at? "(" then c.advance else c).rest.head?.filter Token.isIdentifier = found
  cases found with
  | none => rfl
  | some name =>
    simp only
    split
    · split <;> rfl
    · rfl

theorem readPrimary_nil (h : c.rest = []) :
    e.readPrimary m c = .error (c.fail (.missingOperand e.last.text) e.endPlace) := by
  rw [readPrimary, primary]
  split
  · rfl
  · rename_i hcons
    rw [hcons] at h
    cases h

theorem readPrimary_eq {t : Token} {ts : List Token} (h : c.rest = t :: ts) :
    e.readPrimary m c =
      match t.kind with
      | .number =>
        match Constant.integer t.text with
        | .error cause => .error (c.fail cause t.location)
        | .ok value => .ok (value, c.advance)
      | .character =>
        match Constant.character t.text with
        | .error cause => .error (c.fail cause t.location)
        | .ok value => .ok (value, c.advance)
      | .identifier =>
        if t.text = "defined" then e.readDefined c.advance t.location
        else if m.live then .ok (.ofBool false, { c.advance with undefined := t :: c.undefined })
        else .ok (.ofBool false, c.advance)
      | .string => .error (c.fail .stringLiteral t.location)
      | _ =>
        if t.isPunctuator "(" then
          if ConditionFault.parenthesisLimit ≤ m.parentheses then
            .error (c.fail .tooManyParentheses t.location)
          else
            match e.readConditional { m with parentheses := m.parentheses + 1 } c.advance with
            | .error failure => .error failure
            | .ok (value, c₂) =>
              if c₂.at? ")" then .ok (value, c₂.advance)
              else .error (c₂.fail .expectedClose (e.place c₂))
        else .error (c.fail (.unexpected t.text) t.location) := by
  rw [readPrimary, primary]
  split
  · rename_i hnil
    rw [hnil] at h
    cases h
  · rename_i t' ts' hcons
    obtain ⟨rfl, rfl⟩ := List.cons.inj (hcons.symm.trans h)
    cases t'.kind with
    | number => cases Constant.integer t'.text <;> rfl
    | character => cases Constant.character t'.text <;> rfl
    | identifier =>
      by_cases htext : t'.text = "defined"
      · simp only [htext, if_true, readDefined]
        cases e.applyDefined t'.location c.advance with
        | error failure => rfl
        | ok o => rfl
      · by_cases hlive : m.live = true <;> simp [Except.map, htext, hlive]
    | string => rfl
    | _ =>
      by_cases hopened : t'.isPunctuator "(" = true
      · by_cases hdeep : ConditionFault.parenthesisLimit ≤ m.parentheses
        · simp [Except.map, hopened, hdeep]
        simp only [hopened, hdeep, if_true, if_false, readConditional]
        cases e.conditional _ c.advance with
        | error failure => rfl
        | ok o =>
          obtain ⟨value, c₂, h₂⟩ := o
          by_cases hclosed : c₂.at? ")" = true <;> simp [Except.map, hclosed]
      · simp [Except.map, hopened]

end

end Evaluator

/-! ## The next token -/

namespace Cursor

theorem at?_cons {t : Token} {ts before : List Token} {text : String} :
    at? { rest := t :: ts, undefined := before } text = t.isPunctuator text := by
  simp [at?]

theorem at?_eq_false {ts before : List Token} {text : String}
    (h : ∀ t ∈ ts.head?, t.isPunctuator text = false) :
    at? { rest := ts, undefined := before } text = false := by
  cases ts with
  | nil => rfl
  | cons t ts => rw [at?_cons, h t rfl]

theorem operator?_cons {n : Nat} {op : BinaryOperator} {t : Token} {ts before : List Token}
    (ht : t.isPunctuator op.text = true) (level : op.level = n) :
    operator? { rest := t :: ts, undefined := before } n = some (op, t.location) := by
  obtain ⟨kind, htext⟩ := Token.isPunctuator_iff.mp ht
  simp [operator?, kind, BinaryOperator.ofText?_eq_some_iff.mpr htext, level]

theorem operator?_eq_none {n : Nat} {ts before : List Token}
    (h : ∀ t ∈ ts.head?, ∀ op : BinaryOperator, t.isPunctuator op.text = true → op.level ≠ n) :
    operator? { rest := ts, undefined := before } n = none := by
  cases ts with
  | nil => rfl
  | cons t ts =>
    simp only [operator?]
    split
    · rename_i kind
      cases hop : BinaryOperator.ofText? t.text with
      | none => rfl
      | some op =>
        have htext := BinaryOperator.ofText?_eq_some_iff.mp hop
        have := h t rfl op (Token.isPunctuator_iff.mpr ⟨kind, htext⟩)
        simp [this]
    · rfl

theorem unary?_cons {op : UnaryOperator} {t : Token} {ts before : List Token}
    (ht : t.isPunctuator op.text = true) :
    unary? { rest := t :: ts, undefined := before } = some op := by
  obtain ⟨kind, htext⟩ := Token.isPunctuator_iff.mp ht
  simp [unary?, kind, UnaryOperator.ofText?_eq_some_iff.mpr htext]

theorem unary?_eq_none {ts before : List Token}
    (h : ∀ t ∈ ts.head?, ∀ op : UnaryOperator, t.isPunctuator op.text = false) :
    unary? { rest := ts, undefined := before } = none := by
  cases ts with
  | nil => rfl
  | cons t ts =>
    simp only [unary?]
    split
    · rename_i kind
      cases hop : UnaryOperator.ofText? t.text with
      | none => rfl
      | some op =>
        have htext := UnaryOperator.ofText?_eq_some_iff.mp hop
        cases (h t rfl op).symm.trans (Token.isPunctuator_iff.mpr ⟨kind, htext⟩)
    · rfl

theorem rest_of_at? {c : Cursor} {text : String} (h : c.at? text = true) :
    ∃ t, c.rest = t :: c.advance.rest ∧ t.isPunctuator text = true := by
  obtain ⟨ts, names⟩ := c
  cases ts with
  | nil => cases h
  | cons t ts => exact ⟨t, rfl, by rwa [at?_cons] at h⟩

theorem stop_of_at? {c : Cursor} {text : String} (h : ¬ c.at? text = true) :
    ∀ t ∈ c.rest.head?, t.isPunctuator text = false := by
  intro t ht
  rw [Bool.eq_false_iff]
  intro hp
  exact h (by rw [at?, Option.mem_def.mp ht]; exact hp)

theorem rest_of_head? {c : Cursor} {t : Token} (h : c.rest.head? = some t) :
    c.rest = t :: c.advance.rest := by
  obtain ⟨ts, hts⟩ := List.head?_eq_some_iff.mp h
  rw [advance, hts]
  rfl

theorem rest_of_operator? {c : Cursor} {n : Nat} {op : BinaryOperator} {place : Location}
    (h : c.operator? n = some (op, place)) :
    ∃ t, c.rest = t :: c.advance.rest ∧ t.isPunctuator op.text = true ∧ op.level = n ∧
      t.location = place := by
  obtain ⟨ts, names⟩ := c
  cases ts with
  | nil => cases h
  | cons t ts =>
    simp only [operator?] at h
    split at h
    · rename_i kind
      obtain ⟨op', hfilter, heq⟩ := Option.map_eq_some_iff.mp h
      cases heq
      obtain ⟨hop, level⟩ := Option.filter_eq_some_iff.mp hfilter
      have htext := BinaryOperator.ofText?_eq_some_iff.mp hop
      exact ⟨t, rfl, Token.isPunctuator_iff.mpr ⟨kind, htext⟩, by simpa using level, rfl⟩
    · cases h

theorem stop_of_operator? {c : Cursor} {n : Nat} (h : c.operator? n = none) :
    ∀ t ∈ c.rest.head?, ∀ op : BinaryOperator, t.isPunctuator op.text = true → op.level ≠ n := by
  obtain ⟨ts, names⟩ := c
  intro t ht op hop level
  cases ts with
  | nil => cases ht
  | cons t' ts =>
    cases ht
    rw [operator?_cons hop level] at h
    cases h

theorem rest_of_unary? {c : Cursor} {op : UnaryOperator} (h : c.unary? = some op) :
    ∃ t, c.rest = t :: c.advance.rest ∧ t.isPunctuator op.text = true := by
  obtain ⟨ts, names⟩ := c
  cases ts with
  | nil => cases h
  | cons t ts =>
    simp only [unary?] at h
    split at h
    · rename_i kind
      exact ⟨t, rfl, Token.isPunctuator_iff.mpr ⟨kind, UnaryOperator.ofText?_eq_some_iff.mp h⟩⟩
    · cases h

theorem stop_of_unary? {c : Cursor} (h : c.unary? = none) :
    ∀ t ∈ c.rest.head?, ∀ op : UnaryOperator, t.isPunctuator op.text = false := by
  obtain ⟨ts, names⟩ := c
  intro t ht op
  cases ts with
  | nil => cases ht
  | cons t' ts =>
    cases ht
    rw [Bool.eq_false_iff]
    intro hop
    rw [unary?_cons hop] at h
    cases h

end Cursor

/-! ## Induction along the descent -/

namespace Evaluator

variable {e : Evaluator} {m : Mode} {c c' : Cursor} {v : Value}

theorem length_of_readConditional (h : e.readConditional m c = .ok (v, c')) :
    c'.rest.length < c.rest.length := by
  obtain ⟨o, -, heq⟩ := map_eq_ok_iff.mp h
  cases heq
  exact o.shorter

theorem length_of_readOperators {level : Nat} (h : e.readOperators m c level = .ok (v, c')) :
    c'.rest.length < c.rest.length := by
  obtain ⟨o, -, heq⟩ := map_eq_ok_iff.mp h
  cases heq
  exact o.shorter

end Evaluator

/-- The functions of the evaluator, with what they are given beside the mode and the tokens. -/
inductive Part
  | conditional
  | operators (level : Nat)
  | more (level : Nat) (left : Value)
  | unary
  | primary
  | defined (keyword : Location)

def Evaluator.read (e : Evaluator) (part : Part) (m : Mode) (c : Cursor) :
    Except Failure (Value × Cursor) :=
  match part with
  | .conditional => e.readConditional m c
  | .operators level => e.readOperators m c level
  | .more level left => e.readMore m c level left
  | .unary => e.readUnary m c
  | .primary => e.readPrimary m c
  | .defined keyword => e.readDefined c keyword

/-- What holds of each function if it holds of its calls holds of all of them. A call is one for the
same tokens of a function further down, or one for less tokens. -/
@[elab_as_elim]
theorem Part.descent {motive : Part → Mode → Cursor → Prop}
    (conditional : ∀ m c, motive (.operators 0) m c →
      (∀ m' c', c'.rest.length < c.rest.length → motive .conditional m' c') →
      motive .conditional m c)
    (operators : ∀ level m c, level < BinaryOperator.levels → motive (.operators (level + 1)) m c →
      (∀ left m' c', c'.rest.length < c.rest.length → motive (.more level left) m' c') →
      motive (.operators level) m c)
    (tightest : ∀ level m c, ¬ level < BinaryOperator.levels → motive .unary m c →
      motive (.operators level) m c)
    (more : ∀ level left m c,
      (∀ m' c', c'.rest.length < c.rest.length → motive (.operators (level + 1)) m' c') →
      (∀ left' m' c', c'.rest.length < c.rest.length → motive (.more level left') m' c') →
      motive (.more level left) m c)
    (unary : ∀ m c, motive .primary m c →
      (∀ m' c', c'.rest.length < c.rest.length → motive .unary m' c') → motive .unary m c)
    (primary : ∀ m c, (∀ keyword m' c', motive (.defined keyword) m' c') →
      (∀ m' c', c'.rest.length < c.rest.length → motive .conditional m' c') → motive .primary m c)
    (defined : ∀ keyword m c, motive (.defined keyword) m c)
    (part : Part) (m : Mode) (c : Cursor) : motive part m c := by
  generalize hlength : c.rest.length = length
  induction length using Nat.strongRecOn generalizing part m c with
  | ind length ih =>
    subst hlength
    have below : ∀ part m' c', c'.rest.length < c.rest.length → motive part m' c' :=
      fun part m' c' h => ih _ h part m' c' rfl
    have hprimary : ∀ m, motive .primary m c := fun m => primary m c defined (below _)
    have hunary : ∀ m, motive .unary m c := fun m => unary m c (hprimary m) (below _)
    have hoperators : ∀ level m, motive (.operators level) m c := by
      intro level m
      rcases Nat.le_or_le BinaryOperator.levels level with hle | hle
      · exact tightest level m c (Nat.not_lt.mpr hle) (hunary m)
      · induction hle using Nat.decreasingInduction with
        | self => exact tightest _ m c (Nat.lt_irrefl _) (hunary m)
        | of_succ level hlt ih =>
          exact operators level m c hlt ih fun left => below (.more level left)
    cases part with
    | conditional => exact conditional m c (hoperators 0 m) (below _)
    | operators level => exact hoperators level m
    | more level left =>
      exact more level left m c (below _) fun left' => below (.more level left')
    | unary => exact hunary m
    | primary => exact hprimary m
    | defined keyword => exact defined keyword m c

end CPreprocessor
