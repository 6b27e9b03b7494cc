import CPreprocessor.Proofs.Condition.Descent
import CPreprocessor.Proofs.Condition.Signedness

/-!
# The evaluator follows the grammar

What the descent reads, the evaluator reads too, and it gives its meaning (`Reads.evaluates`). The
relation between an expression and what came of it is `Evaluator.Agrees`.
-/

namespace CPreprocessor

section

-- What an expression means is unfolded throughout.
attribute [local simp] Expression.eval Expression.undefined Expression.parentheses Expression.nesting

namespace Evaluator

/-- What comes of reading `x` before `rest`, when the names `before` had been evaluated. A skipped
expression gives some value of its type and evaluates no name. -/
inductive Agrees (e : Evaluator) (live : Bool) (x : Expression) (before rest : List Token) :
    Except Failure (Value × Cursor) → Prop
  | ok {v : Value} (hlive : live = true) (h : x.eval e.isDefined = .ok v) :
    Agrees e live x before rest
      (.ok (v, { rest, undefined := (x.undefined e.isDefined).reverse ++ before }))
  | error {fault : Located ConditionFault} (hlive : live = true)
    (h : x.eval e.isDefined = .error fault) :
    Agrees e live x before rest
      (.error { fault, undefined := (x.undefined e.isDefined).reverse ++ before })
  | skipped {v : Value} (dead : live = false) (h : v.unsigned = x.unsigned) :
    Agrees e live x before rest (.ok (v, { rest, undefined := before }))

end Evaluator

/-- What the descent of the evaluator is to give for a goal. -/
def Goal.Evaluates (e : Evaluator) (m : Mode) (before : List Token) :
    Goal → List Token → Expression → List Token → Prop
  | conditional, ts, x, rest =>
    e.Agrees m.live x before rest (e.readConditional m { rest := ts, undefined := before })
  | operators n, ts, x, rest =>
    e.Agrees m.live x before rest (e.readOperators m { rest := ts, undefined := before } n)
  | more n l, ts, x, rest =>
    ∀ v c, e.Agrees m.live l before ts (.ok (v, c)) → e.Agrees m.live x before rest (e.readMore m c n v)
  | unary, ts, x, rest =>
    e.Agrees m.live x before rest (e.readUnary m { rest := ts, undefined := before })
  | primary, ts, x, rest =>
    e.Agrees m.live x before rest (e.readPrimary m { rest := ts, undefined := before })

/-- A fault in a left operand is the fault of the whole. -/
theorem Reads.eval_eq_error_of_more {n : Nat} {l x : Expression} {ts rest : List Token}
    {isDefined : String → Bool} {fault : Located ConditionFault} (h : Reads (.more n l) ts x rest)
    (hl : l.eval isDefined = .error fault) :
    x.eval isDefined = .error fault ∧ x.undefined isDefined = l.undefined isDefined := by
  generalize hg : Goal.more n l = g at h
  induction h generalizing l with
  | stop =>
    cases hg
    exact ⟨hl, rfl⟩
  | @step n op t ts ts₁ rest l' r x ht level hr h ihr ih =>
    cases hg
    have heval : (Expression.binary op t.location l' r).eval isDefined = .error fault := by
      simp [hl]
    obtain ⟨hx, hundefined⟩ := ih heval rfl
    refine ⟨hx, hundefined.trans ?_⟩
    simp [hl]
  | _ => cases hg

/-- A left operand is nested no deeper than the whole. -/
theorem Reads.nesting_le_of_more {n : Nat} {l x : Expression} {ts rest : List Token}
    (h : Reads (.more n l) ts x rest) :
    l.parentheses ≤ x.parentheses ∧ l.nesting ≤ x.nesting := by
  generalize hg : Goal.more n l = g at h
  induction h generalizing l with
  | stop =>
    cases hg
    exact ⟨Nat.le_refl _, Nat.le_refl _⟩
  | step ht level hr h ihr ih =>
    cases hg
    obtain ⟨hparentheses, hnesting⟩ := ih rfl
    simp only [Expression.parentheses, Expression.nesting] at hparentheses hnesting
    exact ⟨by omega, by omega⟩
  | _ => cases hg

namespace Evaluator

variable {e : Evaluator} {m : Mode} {live : Bool} {before rest ts : List Token}

theorem Agrees.unsigned {x : Expression} {v : Value} {c : Cursor}
    (h : e.Agrees live x before rest (.ok (v, c))) : v.unsigned = x.unsigned ∧ c.rest = rest := by
  cases h with
  | ok hlive h => exact ⟨Expression.unsigned_of_eval h, rfl⟩
  | skipped dead h => exact ⟨h, rfl⟩

/-- The part of a reading that goes on with another one after the fault of the first. -/
theorem Agrees.of_error {x y : Expression} {failure : Failure}
    (h : e.Agrees live x before ts (.error failure))
    (hy : ∀ fault, x.eval e.isDefined = .error fault →
      y.eval e.isDefined = .error fault ∧ y.undefined e.isDefined = x.undefined e.isDefined) :
    e.Agrees live y before rest (.error failure) := by
  cases h with
  | error hlive h =>
    obtain ⟨heval, hundefined⟩ := hy _ h
    rw [← hundefined]
    exact .error hlive heval

theorem Agrees.unary {op : UnaryOperator} {x : Expression} {v : Value} {c : Cursor}
    (h : e.Agrees live x before rest (.ok (v, c))) :
    e.Agrees live (.unary op x) before rest (.ok (op.apply v, c)) := by
  cases h with
  | ok hlive h => exact .ok hlive (by simp [h, Except.map])
  | skipped dead h => exact .skipped dead (UnaryOperator.unsigned_apply h)

theorem Agrees.group {x : Expression} {v : Value} {c : Cursor}
    (h : e.Agrees live x before ts (.ok (v, c))) :
    e.Agrees live (.group x) before rest (.ok (v, { rest, undefined := c.undefined })) := by
  cases h with
  | ok hlive h => exact .ok hlive h
  | skipped dead h => exact .skipped dead h

/-- The value of an operation whose operands were read. -/
theorem Agrees.binary {op : BinaryOperator} {place : Location} {l r : Expression} {a b : Value}
    {c₁ c₂ : Cursor} (hl : e.Agrees live l before ts (.ok (a, c₁)))
    (hr : e.Agrees (live && op.evaluatesRight a) r c₁.undefined rest
      (.ok (b, c₂))) :
    e.Agrees live (.binary op place l r) before rest
      (match (if live then op.apply a b else .ok (op.skip a b)) with
        | .error cause => .error (c₂.fail cause place)
        | .ok v => .ok (v, c₂)) := by
  cases hl with
  | ok hlive hl =>
    cases hr with
    | ok hlive' hr =>
      have hright : op.evaluatesRight a = true := by simpa [hlive] using hlive'
      have hundefined : (Expression.binary op place l r).undefined e.isDefined =
          l.undefined e.isDefined ++ r.undefined e.isDefined := by
        simp [hl, hright]
      rw [if_pos hlive, ← List.append_assoc, ← List.reverse_append, ← hundefined]
      cases hab : op.apply a b with
      | error cause =>
        exact .error hlive (by simp [hl, hr, hright, hab, Except.mapError])
      | ok v => exact .ok hlive (by simp [hl, hr, hright, hab, Except.mapError])
    | skipped dead hr =>
      have hright : op.evaluatesRight a = false := by simpa [hlive] using dead
      have hundefined : (Expression.binary op place l r).undefined e.isDefined =
          l.undefined e.isDefined := by
        simp [hl, hright]
      rw [if_pos hlive, BinaryOperator.apply_of_not_evaluatesRight b hright, ← hundefined]
      exact .ok hlive (by simp [hl, hright])
  | skipped dead hl =>
    cases hr with
    | ok hlive' => simp [dead] at hlive'
    | skipped _ hr =>
      rw [if_neg (by simp [dead])]
      exact .skipped dead (BinaryOperator.unsigned_skip hl hr)

/-- The value of a conditional operator whose operands were read. -/
theorem Agrees.choice {ts₁ ts₂ : List Token} {c t f : Expression} {a v w : Value}
    {c₁ c₂ c₃ : Cursor} (hc : e.Agrees live c before ts₁ (.ok (a, c₁)))
    (ht : e.Agrees (live && a.truthy) t c₁.undefined ts₂
      (.ok (v, c₂)))
    (hf : e.Agrees (live && !a.truthy) f c₂.undefined rest
      (.ok (w, c₃))) :
    e.Agrees live (.choice c t f) before rest
      (.ok (.wrap (if a.truthy then v else w).value (v.unsigned || w.unsigned), c₃)) := by
  rw [ht.unsigned.1, hf.unsigned.1]
  cases hc with
  | ok hlive hc =>
    cases ht with
    | ok hlive' ht =>
      have htrue : a.truthy = true := by simpa [hlive] using hlive'
      cases hf with
      | ok hlive'' => simp [htrue] at hlive''
      | skipped _ hf =>
        have hundefined : (Expression.choice c t f).undefined e.isDefined =
            c.undefined e.isDefined ++ t.undefined e.isDefined := by
          simp [hc, htrue]
        rw [if_pos htrue, ← List.append_assoc, ← List.reverse_append, ← hundefined]
        exact .ok hlive (by simp [hc, ht, htrue, Except.map])
    | skipped dead ht =>
      have hfalse : a.truthy = false := by simpa [hlive] using dead
      cases hf with
      | ok _ hf =>
        have hundefined : (Expression.choice c t f).undefined e.isDefined =
            c.undefined e.isDefined ++ f.undefined e.isDefined := by
          simp [hc, hfalse]
        rw [if_neg (by simp [hfalse]), ← List.append_assoc, ← List.reverse_append, ← hundefined]
        exact .ok hlive (by simp [hc, hf, hfalse, Except.map])
      | skipped dead' => simp [hlive, hfalse] at dead'
  | skipped dead hc =>
    cases ht with
    | ok hlive' => simp [dead] at hlive'
    | skipped _ ht =>
      cases hf with
      | ok hlive' => simp [dead] at hlive'
      | skipped _ hf => exact .skipped dead rfl

theorem Agrees.binary_error {op : BinaryOperator} {place : Location} {l r : Expression} {a : Value}
    {c₁ : Cursor} {failure : Failure} {ts₁ : List Token} (hl : e.Agrees live l before ts (.ok (a, c₁)))
    (hr : e.Agrees (live && op.evaluatesRight a) r c₁.undefined ts₁
      (.error failure)) :
    e.Agrees live (.binary op place l r) before rest (.error failure) := by
  cases hr with
  | error hlive' hr =>
    cases hl with
    | ok hlive hl =>
      have hright : op.evaluatesRight a = true := by simpa [hlive] using hlive'
      have hundefined : (Expression.binary op place l r).undefined e.isDefined =
          l.undefined e.isDefined ++ r.undefined e.isDefined := by
        simp [hl, hright]
      rw [← List.append_assoc, ← List.reverse_append, ← hundefined]
      exact .error hlive (by simp [hl, hr, hright])
    | skipped dead => simp [dead] at hlive'

theorem Agrees.choice_error_whenTrue {ts₁ : List Token} {c t f : Expression} {a : Value}
    {c₁ : Cursor} {failure : Failure} (hc : e.Agrees live c before ts (.ok (a, c₁)))
    (ht : e.Agrees (live && a.truthy) t c₁.undefined ts₁
      (.error failure)) :
    e.Agrees live (.choice c t f) before rest (.error failure) := by
  cases ht with
  | error hlive' ht =>
    cases hc with
    | ok hlive hc =>
      have htrue : a.truthy = true := by simpa [hlive] using hlive'
      have hundefined : (Expression.choice c t f).undefined e.isDefined =
          c.undefined e.isDefined ++ t.undefined e.isDefined := by
        simp [hc, htrue]
      rw [← List.append_assoc, ← List.reverse_append, ← hundefined]
      exact .error hlive (by simp [hc, ht, htrue, Except.map])
    | skipped dead => simp [dead] at hlive'

theorem Agrees.choice_error_whenFalse {ts₁ ts₂ : List Token} {c t f : Expression}
    {a v : Value} {c₁ c₂ : Cursor} {failure : Failure}
    (hc : e.Agrees live c before ts (.ok (a, c₁)))
    (ht : e.Agrees (live && a.truthy) t c₁.undefined ts₁
      (.ok (v, c₂)))
    (hf : e.Agrees (live && !a.truthy) f c₂.undefined ts₂
      (.error failure)) :
    e.Agrees live (.choice c t f) before rest (.error failure) := by
  cases hf with
  | error hlive' hf =>
    cases hc with
    | ok hlive hc =>
      have hfalse : a.truthy = false := by simpa [hlive] using hlive'
      cases ht with
      | ok hlive'' => simp [hfalse] at hlive''
      | skipped =>
        have hundefined : (Expression.choice c t f).undefined e.isDefined =
            c.undefined e.isDefined ++ f.undefined e.isDefined := by
          simp [hc, hfalse]
        rw [← List.append_assoc, ← List.reverse_append, ← hundefined]
        exact .error hlive (by simp [hc, hf, hfalse, Except.map])
    | skipped dead => simp [dead] at hlive'

/-! ## The evaluator follows the descent -/

theorem readDefined_of_leaf {keyword : Location} {t : Token} (kind : t.kind = .identifier) :
    e.readDefined { rest := t :: rest, undefined := before } keyword =
      .ok (.ofBool (e.isDefined t.text), { rest, undefined := before }) := by
  have hopened : t.isPunctuator "(" = false := Token.isPunctuator_eq_false_of_kind (by simp [kind])
  rw [readDefined_eq]
  simp [Cursor.at?_cons, hopened, Option.filter, Token.isIdentifier, kind, Cursor.advance]

theorem readDefined_of_parentheses {keyword : Location} {opened t closed : Token}
    (hopened : opened.isPunctuator "(" = true) (kind : t.kind = .identifier)
    (hclosed : closed.isPunctuator ")" = true) :
    e.readDefined { rest := opened :: t :: closed :: rest, undefined := before } keyword =
      .ok (.ofBool (e.isDefined t.text), { rest, undefined := before }) := by
  rw [readDefined_eq]
  simp [Cursor.at?_cons, hopened, hclosed, Option.filter, Token.isIdentifier, kind,
    Cursor.advance]

theorem agrees_of_leaf {x : Expression} (h : Expression.Leaf ts x) :
    e.Agrees m.live x before rest (e.readPrimary m { rest := ts ++ rest, undefined := before }) := by
  have value : ∀ v : Value, x.eval e.isDefined = .ok v → x.undefined e.isDefined = [] →
      e.Agrees m.live x before rest (.ok (v, { rest, undefined := before })) := by
    intro v heval hundefined
    cases hlive : m.live with
    | true =>
      have hok : e.Agrees true x before rest _ := .ok rfl heval
      rwa [hundefined] at hok
    | false => exact .skipped rfl (Expression.unsigned_of_eval heval)
  cases h with
  | number kind h =>
    rw [readPrimary_eq e m _ rfl]
    simp only [kind, Constant.integer_eq_ok_iff.mpr h]
    exact value _ rfl rfl
  | character kind h =>
    rw [readPrimary_eq e m _ rfl]
    simp only [kind, Constant.character_of_characterConstant h]
    exact value _ rfl rfl
  | name kind ne =>
    rw [readPrimary_eq e m _ rfl]
    simp only [kind, ne, if_false]
    split
    · rename_i live
      exact .ok live rfl
    · rename_i dead
      exact .skipped (by simpa using dead) rfl
  | defined hkeyword htext kind =>
    rw [readPrimary_eq e m _ rfl]
    simp only [hkeyword, htext, if_true, Cursor.advance, List.cons_append, List.tail_cons]
    rw [List.nil_append, readDefined_of_leaf kind]
    exact value _ rfl rfl
  | definedIn hkeyword htext hopened kind hclosed =>
    rw [readPrimary_eq e m _ rfl]
    simp only [hkeyword, htext, if_true, Cursor.advance, List.cons_append, List.tail_cons]
    rw [List.nil_append, readDefined_of_parentheses hopened kind hclosed]
    exact value _ rfl rfl

end Evaluator

/-- Whether the evaluator gives for what is read its meaning, wherever that is not nested too deep. -/
def Evaluator.Gives (e : Evaluator) (g : Goal) (ts : List Token) (x : Expression) (rest : List Token) :
    Prop :=
  ∀ (m : Mode) (before : List Token),
    x.parentheses + m.parentheses ≤ ConditionFault.parenthesisLimit → x.nesting ≤ m.nesting →
      g.Evaluates e m before ts x rest

namespace Evaluator.Gives

variable {e : Evaluator} {n : Nat} {ts ts₁ ts₂ rest : List Token} {x : Expression}

theorem condition (ih : e.Gives (.operators 0) ts x rest)
    (stop : ∀ t ∈ rest.head?, t.isPunctuator "?" = false) : e.Gives .conditional ts x rest := by
  intro m before hparentheses hnesting
  have hr : e.Agrees m.live x before rest (e.readOperators m { rest := ts, undefined := before } 0) :=
    ih m before hparentheses hnesting
  show e.Agrees m.live x before rest (e.readConditional m { rest := ts, undefined := before })
  rw [readConditional_eq]
  generalize e.readOperators m _ 0 = r at hr ⊢
  cases r with
  | error failure => exact hr
  | ok result =>
    obtain ⟨v, ts', names⟩ := result
    obtain ⟨-, rfl⟩ := hr.unsigned
    simp only [Cursor.at?_eq_false stop]
    exact hr

theorem choice {mark colon : Token} {c t f : Expression}
    (ihc : e.Gives (.operators 0) ts c (mark :: ts₁)) (hmark : mark.isPunctuator "?" = true)
    (iht : e.Gives .conditional ts₁ t (colon :: ts₂)) (hcolon : colon.isPunctuator ":" = true)
    (ihf : e.Gives .conditional ts₂ f rest) : e.Gives .conditional ts (.choice c t f) rest := by
  intro m before hparentheses hnesting
  simp only [Expression.parentheses, Expression.nesting] at hparentheses hnesting
  have hr : e.Agrees m.live c before (mark :: ts₁)
      (e.readOperators m { rest := ts, undefined := before } 0) := ihc m before (by omega) (by omega)
  show e.Agrees m.live (.choice c t f) before rest
    (e.readConditional m { rest := ts, undefined := before })
  rw [readConditional_eq]
  generalize e.readOperators m _ 0 = r at hr ⊢
  cases r with
  | error failure => exact hr.of_error fun fault h => by simp [h]
  | ok result =>
    obtain ⟨a, ts', names⟩ := result
    obtain ⟨-, rfl⟩ := hr.unsigned
    simp only [Cursor.at?_cons, hmark, if_true, Cursor.advance, List.tail_cons]
    rw [if_neg (by omega)]
    have hr₁ : e.Agrees (m.live && a.truthy) t names (colon :: ts₂) (e.readConditional _ _) :=
      iht { m with live := m.live && a.truthy, nesting := m.nesting - 1 } names
        (by simp only; omega) (by simp only; omega)
    generalize e.readConditional _ _ = r₁ at hr₁ ⊢
    cases r₁ with
    | error failure => exact hr.choice_error_whenTrue hr₁
    | ok result =>
      obtain ⟨v, ts', names₁⟩ := result
      obtain ⟨-, rfl⟩ := hr₁.unsigned
      simp only [Cursor.at?_cons, hcolon, if_true, List.tail_cons]
      have hr₂ : e.Agrees (m.live && !a.truthy) f names₁ rest (e.readConditional _ _) :=
        ihf { m with live := m.live && !a.truthy, nesting := m.nesting - 1 } names₁
          (by simp only; omega) (by simp only; omega)
      generalize e.readConditional _ _ = r₂ at hr₂ ⊢
      cases r₂ with
      | error failure => exact hr.choice_error_whenFalse hr₁ hr₂
      | ok result => exact hr.choice hr₁ hr₂

theorem chain {l : Expression} (lt : n < BinaryOperator.levels) (ihl : e.Gives (.operators (n + 1)) ts l ts₁)
    (h : Reads (.more n l) ts₁ x rest) (ih : e.Gives (.more n l) ts₁ x rest) :
    e.Gives (.operators n) ts x rest := by
  intro m before hparentheses hnesting
  obtain ⟨hp, hn⟩ := h.nesting_le_of_more
  have hr : e.Agrees m.live l before ts₁
      (e.readOperators m { rest := ts, undefined := before } (n + 1)) :=
    ihl m before (by omega) (by omega)
  have hmore : ∀ v c, e.Agrees m.live l before ts₁ (.ok (v, c)) →
      e.Agrees m.live x before rest (e.readMore m c n v) := ih m before hparentheses hnesting
  show e.Agrees m.live x before rest (e.readOperators m { rest := ts, undefined := before } n)
  rw [readOperators_eq, if_pos lt]
  generalize e.readOperators m _ _ = r at hr ⊢
  cases r with
  | error failure => exact hr.of_error fun fault hfault => h.eval_eq_error_of_more hfault
  | ok result => exact hmore result.1 result.2 hr

theorem tightest (ih : e.Gives .unary ts x rest) :
    e.Gives (.operators BinaryOperator.levels) ts x rest := by
  intro m before hparentheses hnesting
  show e.Agrees m.live x before rest
    (e.readOperators m { rest := ts, undefined := before } BinaryOperator.levels)
  rw [readOperators_eq, if_neg (Nat.lt_irrefl _)]
  exact ih m before hparentheses hnesting

theorem stop {l : Expression}
    (h : ∀ t ∈ ts.head?, ∀ op : BinaryOperator, t.isPunctuator op.text = true → op.level ≠ n) :
    e.Gives (.more n l) ts l ts := by
  rintro m before - - v ⟨ts', names⟩ hl
  obtain ⟨-, rfl⟩ := hl.unsigned
  rw [readMore_eq, Cursor.operator?_eq_none h]
  exact hl

theorem step {op : BinaryOperator} {t : Token} {l r : Expression} (ht : t.isPunctuator op.text = true)
    (level : op.level = n) (ihr : e.Gives (.operators (n + 1)) ts r ts₁)
    (h : Reads (.more n (.binary op t.location l r)) ts₁ x rest)
    (ih : e.Gives (.more n (.binary op t.location l r)) ts₁ x rest) :
    e.Gives (.more n l) (t :: ts) x rest := by
  rintro m before hparentheses hnesting a ⟨ts', names⟩ hl
  obtain ⟨-, rfl⟩ := hl.unsigned
  obtain ⟨hp, hn⟩ := h.nesting_le_of_more
  simp only [Expression.parentheses, Expression.nesting] at hp hn
  rw [readMore_eq, Cursor.operator?_cons ht level]
  have hright : e.Agrees (m.live && op.evaluatesRight a) r names ts₁ (e.readOperators _ _ (n + 1)) :=
    ihr { m with live := m.live && op.evaluatesRight a } names
      (by simp only; omega) (by simp only; omega)
  have hmore : ∀ v c, e.Agrees m.live (.binary op t.location l r) before ts₁ (.ok (v, c)) →
      e.Agrees m.live x before rest (e.readMore m c n v) := ih m before hparentheses hnesting
  simp only [Cursor.advance, List.tail_cons]
  generalize e.readOperators _ _ _ = o at hright ⊢
  cases o with
  | error failure =>
    have hbinary : e.Agrees m.live (.binary op t.location l r) before rest (.error failure) :=
      hl.binary_error hright
    exact hbinary.of_error fun fault hfault => h.eval_eq_error_of_more hfault
  | ok result =>
    obtain ⟨b, c₂⟩ := result
    have hbinary : e.Agrees m.live (.binary op t.location l r) before ts₁ _ := hl.binary hright
    simp only
    generalize (if m.live then op.apply a b else .ok (op.skip a b)) = o at hbinary ⊢
    cases o with
    | error cause => exact hbinary.of_error fun fault hfault => h.eval_eq_error_of_more hfault
    | ok v => exact hmore v c₂ hbinary

theorem unary {op : UnaryOperator} {t : Token} (ht : t.isPunctuator op.text = true)
    (ih : e.Gives .unary ts x rest) : e.Gives .unary (t :: ts) (.unary op x) rest := by
  intro m before hparentheses hnesting
  simp only [Expression.parentheses, Expression.nesting] at hparentheses hnesting
  have hr : e.Agrees m.live x before rest (e.readUnary _ _) :=
    ih { m with nesting := m.nesting - 1 } before hparentheses (by simp only; omega)
  show e.Agrees m.live (.unary op x) before rest
    (e.readUnary m { rest := t :: ts, undefined := before })
  rw [readUnary_eq, Cursor.unary?_cons ht]
  simp only [Cursor.advance, List.tail_cons]
  rw [if_neg (by omega)]
  generalize e.readUnary _ _ = o at hr ⊢
  cases o with
  | error failure => exact hr.of_error fun fault h => by simp [h, Except.map]
  | ok result => exact hr.unary

theorem operand (ih : e.Gives .primary ts x rest)
    (stop : ∀ t ∈ ts.head?, ∀ op : UnaryOperator, t.isPunctuator op.text = false) :
    e.Gives .unary ts x rest := by
  intro m before hparentheses hnesting
  show e.Agrees m.live x before rest (e.readUnary m { rest := ts, undefined := before })
  rw [readUnary_eq, Cursor.unary?_eq_none stop]
  exact ih m before hparentheses hnesting

theorem group {opened closed : Token} (hopened : opened.isPunctuator "(" = true)
    (ih : e.Gives .conditional ts x (closed :: rest)) (hclosed : closed.isPunctuator ")" = true) :
    e.Gives .primary (opened :: ts) (.group x) rest := by
  intro m before hparentheses hnesting
  simp only [Expression.parentheses, Expression.nesting] at hparentheses hnesting
  have hr : e.Agrees m.live x before (closed :: rest) (e.readConditional _ _) :=
    ih { m with parentheses := m.parentheses + 1 } before (by simp only; omega) hnesting
  obtain ⟨kind, htext⟩ := Token.isPunctuator_iff.mp hopened
  show e.Agrees m.live (.group x) before rest
    (e.readPrimary m { rest := opened :: ts, undefined := before })
  rw [readPrimary_eq e m _ rfl]
  simp only [kind, hopened, if_true, Cursor.advance, List.tail_cons]
  rw [if_neg (by omega)]
  generalize e.readConditional _ _ = o at hr ⊢
  cases o with
  | error failure => exact hr.of_error fun fault h => ⟨h, rfl⟩
  | ok result =>
    obtain ⟨v, ts', names⟩ := result
    obtain ⟨-, rfl⟩ := hr.unsigned
    simp only [Cursor.at?_cons, hclosed, if_true, List.tail_cons]
    exact hr.group

end Evaluator.Gives

/-- What is read by the descent is read by the evaluator, and evaluated, if it is not nested too
deep. -/
theorem Reads.evaluates {e : Evaluator} {g : Goal} {ts rest : List Token} {x : Expression}
    (h : Reads g ts x rest) : e.Gives g ts x rest := by
  induction h with
  | condition h stop ih => exact ih.condition stop
  | choice hc hmark ht hcolon hf ihc iht ihf => exact ihc.choice hmark iht hcolon ihf
  | chain lt hl h ihl ih => exact .chain lt ihl h ih
  | tightest h ih => exact ih.tightest
  | stop h => exact .stop h
  | step ht level hr h ihr ih => exact .step ht level ihr h ih
  | unary ht h ih => exact .unary ht ih
  | operand h stop ih => exact ih.operand stop
  | leaf h split =>
    intro m before _ _
    subst split
    exact Evaluator.agrees_of_leaf h
  | group hopened h hclosed ih => exact .group hopened ih hclosed

end

end CPreprocessor
