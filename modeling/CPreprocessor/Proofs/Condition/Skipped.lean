import Mathlib
import CPreprocessor.Proofs.Condition.FaultPlace
import CPreprocessor.Proofs.Condition.Session

/-!
# Skipped operands are read like evaluated ones

A skipped operand is read along with an evaluated one of the same tokens (`Evaluator.read_shadows`, by
induction along the descent): the cursors stay side by side and the values are of one type, until the
evaluated operand meets a fault of arithmetic. The values themselves differ, as a skipped operation
gives zero, and so a conditional operator within may choose another operand; but its type does not
depend on the choice, and each operand of it is read whether it is chosen or not.
-/

namespace CPreprocessor

/-- The cursor `d` of a skipped reading beside the cursor `c` of an evaluated one: the same tokens are
left, and the names that were evaluated are still `names`. -/
structure Cursor.Beside (names : List Token) (c d : Cursor) : Prop where
  rest : d.rest = c.rest
  undefined : d.undefined = names

namespace Cursor.Beside

variable {names : List Token} {c d : Cursor} (h : Cursor.Beside names c d)
include h

theorem advance : Cursor.Beside names c.advance d.advance :=
  ⟨by rw [Cursor.advance, Cursor.advance, h.rest], h.undefined⟩

theorem at? (text : String) : d.at? text = c.at? text := by
  rw [Cursor.at?, Cursor.at?, h.rest]

theorem unary? : d.unary? = c.unary? := by
  rw [Cursor.unary?, Cursor.unary?, h.rest]

theorem operator? (level : Nat) : d.operator? level = c.operator? level := by
  rw [Cursor.operator?, Cursor.operator?, h.rest]

theorem place (e : Evaluator) : e.place d = e.place c := by
  rw [Evaluator.place, Evaluator.place, h.rest]

end Cursor.Beside

/-- What comes of a reading that is evaluated if `live`, and of the same reading skipped: what the
skipped one gives has the same type and leaves the same tokens, and it fails where the other one does,
but for a fault of arithmetic. -/
def Shadows (live : Bool) (names : List Token) :
    Except Failure (Value × Cursor) → Except Failure (Value × Cursor) → Prop
  | .ok (v, c), skipped =>
    ∃ w d, skipped = .ok (w, d) ∧ w.unsigned = v.unsigned ∧ Cursor.Beside names c d
  | .error failure, skipped =>
    (live = false → failure.fault.cause.ofReading = true) ∧
      (failure.fault.cause.ofReading = true → skipped = .error ⟨failure.fault, names⟩)

namespace Shadows

variable {live outer : Bool} {names : List Token} {read skipped : Except Failure (Value × Cursor)}
  {f g : Value → Cursor → Except Failure (Value × Cursor)} {c d : Cursor} {v w : Value}

/-- What is done with what was read, and with what was skipped. -/
theorem bind :
    Shadows live names read skipped → (outer = false → live = false) →
    (∀ (v w : Value) (c d : Cursor), read = .ok (v, c) → w.unsigned = v.unsigned →
      c.Beside names d → Shadows outer names (f v c) (g w d)) →
    Shadows outer names
      (match read with
      | .error failure => .error failure
      | .ok (v, c) => f v c)
      (match skipped with
      | .error failure => .error failure
      | .ok (w, d) => g w d) := by
  intro h hlive hf
  cases read with
  | error failure =>
    refine ⟨fun houter => h.1 (hlive houter), fun hreading => ?_⟩
    rw [h.2 hreading]
  | ok result =>
    obtain ⟨v, c⟩ := result
    obtain ⟨w, d, rfl, htype, hd⟩ := h
    exact hf v w c d rfl htype hd

theorem fail {cause : ConditionFault} {location : Option Location} (hd : c.Beside names d)
    (h : cause.ofReading = true) :
    Shadows live names (.error (c.fail cause location)) (.error (d.fail cause location)) :=
  ⟨fun _ => h, fun _ => by rw [← hd.undefined]; rfl⟩

theorem ok (hd : c.Beside names d) (h : w.unsigned = v.unsigned) :
    Shadows live names (.ok (v, c)) (.ok (w, d)) :=
  ⟨w, d, rfl, h, hd⟩

end Shadows

/-- The same function, where a left operand may have another value of its type. -/
inductive Part.Alike : Part → Part → Prop
  | refl (part : Part) : Alike part part
  | more (level : Nat) {left left' : Value} (h : left'.unsigned = left.unsigned) :
    Alike (more level left) (more level left')

namespace BinaryOperator

variable {op : BinaryOperator} {a b a' b' v : Value}

theorem unsigned_skip_congr (ha : a'.unsigned = a.unsigned) (hb : b'.unsigned = b.unsigned) :
    (op.skip a' b').unsigned = (op.skip a b).unsigned := by
  cases op <;> simp [skip, Value.ofBool, ha, hb]

/-- What an operation comes to, evaluated or skipped, is of the type of the skipped one. -/
theorem unsigned_skip_of_operation {live : Bool}
    (h : (if live then op.apply a b else .ok (op.skip a b)) = .ok v) (ha : a'.unsigned = a.unsigned)
    (hb : b'.unsigned = b.unsigned) : (op.skip a' b').unsigned = v.unsigned := by
  cases live with
  | false =>
    cases h
    exact unsigned_skip_congr ha hb
  | true =>
    have htype : v.unsigned = (Expression.binary op default (.constant a) (.constant b)).unsigned :=
      unsigned_of_apply h rfl rfl
    rw [htype]
    exact unsigned_skip ha hb

/-- A fault of an operation is one of arithmetic, and it was evaluated. -/
theorem ofReading_of_operation {live : Bool} {cause : ConditionFault}
    (h : (if live then op.apply a b else .ok (op.skip a b)) = .error cause) :
    live = true ∧ cause.ofReading = false := by
  cases live with
  | false => cases h
  | true =>
    rcases apply_eq_error h with ⟨remainder, rfl⟩ | ⟨count, rfl⟩
    · exact ⟨rfl, rfl⟩
    · exact ⟨rfl, rfl⟩

end BinaryOperator

theorem UnaryOperator.unsigned_apply_congr {op : UnaryOperator} {v w : Value}
    (h : w.unsigned = v.unsigned) : (op.apply w).unsigned = (op.apply v).unsigned := by
  cases op <;> simp [apply, Value.wrap, Value.ofBool, h]

theorem Constant.ofReading_of_integer {text : String} {cause : ConditionFault}
    (h : integer text = .error cause) : cause.ofReading = true := by
  rcases category_of_integer h with hcategory | ⟨count, rfl⟩
  · rw [ConditionFault.ofReading, hcategory]
    rfl
  · rfl

theorem Constant.ofReading_of_character {text : String} {cause : ConditionFault}
    (h : character text = .error cause) : cause.ofReading = true := by
  rw [character_eq_error h]
  rfl

namespace Evaluator

variable {e : Evaluator}

theorem shadows_defined (keyword : Location) {live : Bool} {names : List Token} {c d : Cursor}
    (hd : c.Beside names d) :
    Shadows live names (e.readDefined c keyword) (e.readDefined d keyword) := by
  rw [readDefined_eq, readDefined_eq, hd.at?]
  have hopened : Cursor.Beside names (if c.at? "(" then c.advance else c)
      (if c.at? "(" then d.advance else d) := by
    split
    · exact hd.advance
    · exact hd
  simp only
  generalize (if c.at? "(" then c.advance else c) = opened at hopened ⊢
  generalize (if c.at? "(" then d.advance else d) = opened' at hopened ⊢
  rw [hopened.rest]
  cases opened.rest.head?.filter Token.isIdentifier with
  | none => exact .fail hd rfl
  | some name =>
    simp only
    rw [hopened.advance.at?, hopened.advance.place]
    split
    · split
      · exact .ok hopened.advance.advance rfl
      · exact .fail hd rfl
    · exact .ok hopened.advance rfl

theorem shadows_constant {x : Except ConditionFault Value} {location : Location} {live : Bool}
    {names : List Token} {c d : Cursor} :
    c.Beside names d → (∀ cause, x = .error cause → cause.ofReading = true) →
    Shadows live names
      (match x with
      | .error cause => .error (c.fail cause location)
      | .ok value => .ok (value, c.advance))
      (match x with
      | .error cause => .error (d.fail cause location)
      | .ok value => .ok (value, d.advance)) := by
  intro hd h
  cases x with
  | error cause => exact .fail hd (h cause rfl)
  | ok value => exact .ok hd.advance rfl

/-- A reading by one function, evaluated or skipped, and the same reading skipped. -/
def Shadowed (e : Evaluator) (part : Part) (m : Mode) (c : Cursor) : Prop :=
  ∀ (part' : Part) (names : List Token) (d : Cursor), part.Alike part' → c.Beside names d →
    Shadows m.live names (e.read part m c) (e.read part' { m with live := false } d)

section
variable {m : Mode} {c : Cursor} {level : Nat}

theorem shadowed_conditional (hoperators : e.Shadowed (.operators 0) m c)
    (h : ∀ m' c', c'.rest.length < c.rest.length → e.Shadowed .conditional m' c') :
    e.Shadowed .conditional m c := by
  rintro _ names d ⟨⟩ hd
  simp only [read]
  rw [readConditional_eq e m c, readConditional_eq e _ d]
  refine (hoperators _ names d (.refl _) hd).bind id fun a b c₁ d₁ hread htype hd₁ => ?_
  have hlength₁ := length_of_readOperators hread
  rw [hd₁.at?]
  split
  · rename_i hmark
    have hlength₂ := Cursor.length_advance_of_at? hmark
    simp only
    split
    · exact .fail hd₁ rfl
    refine (h { m with live := m.live && a.truthy, nesting := m.nesting - 1 } c₁.advance (by omega)
      .conditional names d₁.advance (.refl _) hd₁.advance).bind
      (fun hdead => by rw [hdead, Bool.false_and]) fun v w c₃ d₃ hread htrue hd₃ => ?_
    have hlength₃ := length_of_readConditional hread
    rw [hd₃.at?, hd₃.place]
    split
    · rename_i hcolon
      have hlength₄ := Cursor.length_advance_of_at? hcolon
      refine (h { m with live := m.live && !a.truthy, nesting := m.nesting - 1 } c₃.advance
        (by omega) .conditional names d₃.advance (.refl _) hd₃.advance).bind
        (fun hdead => by rw [hdead, Bool.false_and]) fun x y c₅ d₅ _ hfalse hd₅ => ?_
      refine .ok hd₅ ?_
      rw [htrue, hfalse]
      rfl
    · exact .fail hd₃ rfl
  · exact .ok hd₁ htype

theorem shadowed_operators (hlt : level < BinaryOperator.levels)
    (hoperators : e.Shadowed (.operators (level + 1)) m c)
    (h : ∀ left m' c', c'.rest.length < c.rest.length → e.Shadowed (.more level left) m' c') :
    e.Shadowed (.operators level) m c := by
  rintro _ names d ⟨⟩ hd
  simp only [read]
  rw [readOperators_eq e m c, readOperators_eq e _ d, if_pos hlt, if_pos hlt]
  refine (hoperators _ names d (.refl _) hd).bind id fun a b c₁ d₁ hread htype hd₁ => ?_
  exact h a m c₁ (length_of_readOperators hread) _ names d₁ (.more level htype) hd₁

theorem shadowed_tightest (hle : ¬ level < BinaryOperator.levels) (hunary : e.Shadowed .unary m c) :
    e.Shadowed (.operators level) m c := by
  rintro _ names d ⟨⟩ hd
  simp only [read]
  rw [readOperators_eq e m c, readOperators_eq e _ d, if_neg hle, if_neg hle]
  exact hunary _ names d (.refl _) hd

theorem shadowed_more {left : Value}
    (hoperators : ∀ m' c', c'.rest.length < c.rest.length → e.Shadowed (.operators (level + 1)) m' c')
    (h : ∀ left' m' c', c'.rest.length < c.rest.length → e.Shadowed (.more level left') m' c') :
    e.Shadowed (.more level left) m c := by
  intro part' names d halike hd
  obtain ⟨left', htype, rfl⟩ : ∃ left' : Value, left'.unsigned = left.unsigned ∧
      part' = .more level left' := by
    cases halike with
    | refl => exact ⟨left, rfl, rfl⟩
    | more _ h => exact ⟨_, h, rfl⟩
  simp only [read]
  rw [readMore_eq e m c, readMore_eq e _ d, hd.operator?]
  cases hop : c.operator? level with
  | none => exact .ok hd htype
  | some found =>
    obtain ⟨op, place⟩ := found
    have hlength := Cursor.length_advance_of_operator? hop
    refine (hoperators { m with live := m.live && op.evaluatesRight left } c.advance hlength _ names
      d.advance (.refl _) hd.advance).bind (fun hdead => by rw [hdead, Bool.false_and])
      fun a b c₂ d₂ hread hright hd₂ => ?_
    have hlength₂ := length_of_readOperators hread
    simp only [Bool.false_eq_true, if_false]
    cases hoperation : (if m.live then op.apply left a else .ok (op.skip left a)) with
    | error cause =>
      obtain ⟨hlive, hfault⟩ := BinaryOperator.ofReading_of_operation hoperation
      exact ⟨fun hdead => Bool.noConfusion (hlive.symm.trans hdead),
        fun hreading => Bool.noConfusion (hfault.symm.trans hreading)⟩
    | ok v =>
      exact h v m c₂ (by omega) _ names d₂
        (.more level (BinaryOperator.unsigned_skip_of_operation hoperation htype hright)) hd₂

theorem shadowed_unary (hprimary : e.Shadowed .primary m c)
    (h : ∀ m' c', c'.rest.length < c.rest.length → e.Shadowed .unary m' c') :
    e.Shadowed .unary m c := by
  rintro _ names d ⟨⟩ hd
  simp only [read]
  rw [readUnary_eq e m c, readUnary_eq e _ d, hd.unary?]
  cases hop : c.unary? with
  | none => exact hprimary _ names d (.refl _) hd
  | some op =>
    have hlength := Cursor.length_advance_of_unary? hop
    simp only
    split
    · exact .fail hd rfl
    refine (h { m with nesting := m.nesting - 1 } c.advance hlength .unary names d.advance (.refl _)
      hd.advance).bind id fun v w c₂ d₂ _ htype hd₂ => ?_
    exact .ok hd₂ (UnaryOperator.unsigned_apply_congr htype)

theorem shadowed_primary
    (h : ∀ m' c', c'.rest.length < c.rest.length → e.Shadowed .conditional m' c') :
    e.Shadowed .primary m c := by
  rintro _ names d ⟨⟩ hd
  simp only [read]
  cases hrest : c.rest with
  | nil =>
    rw [readPrimary_nil e m c hrest, readPrimary_nil e _ d (hd.rest.trans hrest)]
    exact .fail hd rfl
  | cons t ts =>
    have hlength := Cursor.length_advance_of_cons hrest
    rw [readPrimary_eq e m c hrest, readPrimary_eq e _ d (hd.rest.trans hrest)]
    split
    · exact shadows_constant hd fun _ => Constant.ofReading_of_integer
    · exact shadows_constant hd fun _ => Constant.ofReading_of_character
    · split
      · exact shadows_defined _ hd.advance
      · simp only [Bool.false_eq_true, if_false]
        split <;> exact .ok ⟨hd.advance.rest, hd.undefined⟩ rfl
    · exact .fail hd rfl
    · simp only
      split
      · split
        · exact .fail hd rfl
        refine (h { m with parentheses := m.parentheses + 1 } c.advance hlength .conditional names
          d.advance (.refl _) hd.advance).bind id fun v w c₂ d₂ _ htype hd₂ => ?_
        rw [hd₂.at?, hd₂.place]
        split
        · exact .ok hd₂.advance htype
        · exact .fail hd₂ rfl
      · exact .fail hd rfl

end

/-- Skipped readings go along with all readings. -/
theorem read_shadows (e : Evaluator) (part : Part) (m : Mode) (c : Cursor) : e.Shadowed part m c := by
  induction part, m, c using Part.descent with
  | conditional m c hoperators ih => exact shadowed_conditional hoperators ih
  | operators level m c hlt hoperators ih => exact shadowed_operators hlt hoperators ih
  | tightest level m c hle hunary => exact shadowed_tightest hle hunary
  | more level left m c hoperators ih => exact shadowed_more hoperators ih
  | unary m c hprimary ih => exact shadowed_unary hprimary ih
  | primary m c _ ih => exact shadowed_primary ih
  | defined keyword m c =>
    rintro _ names d ⟨⟩ hd
    exact shadows_defined keyword hd

/-- Whatever function of the evaluator reads an operand that is skipped: it meets no fault of
arithmetic and evaluates no name; it leaves the same tokens as for an operand that is evaluated, with a
value of the same type, or it fails in the same way at the same place, unless the evaluated one meets a
fault of arithmetic. In an evaluator with a flag in its state, each function that returns has left the
flag, and the count of open parentheses, as they were. -/
theorem read_skipped (e : Evaluator) (part : Part) (m : Mode) (c : Cursor) :
    (∀ w d, e.read part { m with live := false } c = .ok (w, d) → d.undefined = c.undefined) ∧
    (∀ failure, e.read part { m with live := false } c = .error failure →
      failure.fault.cause.ofReading = true ∧ failure.undefined = c.undefined) ∧
    (∀ v c', e.read part { m with live := true } c = .ok (v, c') →
      ∃ w, e.read part { m with live := false } c = .ok (w, ⟨c'.rest, c.undefined⟩) ∧
        w.unsigned = v.unsigned) ∧
    (∀ failure, e.read part { m with live := true } c = .error failure →
      failure.fault.cause.ofReading = true →
      e.read part { m with live := false } c = .error ⟨failure.fault, c.undefined⟩) ∧
    ∀ live depth, 16 * c.rest.length + part.height ≤ depth →
      e.visit depth part m.nesting ⟨c, live, m.parentheses⟩ =
        raising ((e.read part { m with live := live } c).map fun (v, c') =>
          (v, ⟨c', live, m.parentheses⟩)) := by
  have hbeside : Cursor.Beside c.undefined c c := ⟨rfl, rfl⟩
  have htwice := e.read_shadows part { m with live := false } c part c.undefined c (.refl part) hbeside
  have hshadows := e.read_shadows part { m with live := true } c part c.undefined c (.refl part) hbeside
  dsimp only at htwice hshadows
  refine ⟨fun w d hskipped => ?_, fun failure hskipped => ?_, fun v c' hread => ?_,
    fun failure hread => ?_, fun live depth => e.visit_eq part { m with live := live } c depth⟩
  · rw [hskipped] at htwice
    obtain ⟨_, _, ⟨⟩, -, hd⟩ := htwice
    exact hd.undefined
  · rw [hskipped] at htwice
    have hreading := htwice.1 rfl
    exact ⟨hreading, congrArg Failure.undefined (Except.error.inj (htwice.2 hreading))⟩
  · rw [hread] at hshadows
    obtain ⟨w, ⟨rest, undefined⟩, hskipped, htype, hrest, hnames⟩ := hshadows
    cases hrest
    cases hnames
    exact ⟨w, hskipped, htype⟩
  · rw [hread] at hshadows
    exact hshadows.2

/-- The operand `7u / 2` has an unsigned value, and it has one if it is skipped. -/
theorem read_skipped_quotient :
    let e : Evaluator := { last := ⟨.number, "2", default, ∅, false⟩ }
    let c : Cursor := { rest := [⟨.number, "7u", default, ∅, false⟩,
      ⟨.punctuator, "/", default, ∅, false⟩, ⟨.number, "2", default, ∅, false⟩] }
    e.read .conditional { nesting := 1 } c = .ok (⟨3, true⟩, ⟨[], []⟩) ∧
      ∃ w, e.read .conditional { live := false, nesting := 1 } c = .ok (w, ⟨[], []⟩) ∧
        w.unsigned = true := by
  intro e c
  have hread : e.read .conditional { nesting := 1 } c = .ok (⟨3, true⟩, ⟨[], []⟩) := by cbv
  exact ⟨hread, (e.read_skipped .conditional { nesting := 1 } c).2.2.1 _ _ hread⟩

end Evaluator

end CPreprocessor
