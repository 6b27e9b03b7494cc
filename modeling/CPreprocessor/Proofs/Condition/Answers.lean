import CPreprocessor.Proofs.Condition.Acceptance
import CPreprocessor.Proofs.Condition.Defined

/-!
# The two treatments of `defined`

An application of `defined` is answered before a condition is evaluated, or the evaluator comes to it
while it reads. To read after all operators are answered is to read, and to answer those that are left
then (`Evaluator.commutes`, by induction along the descent). Nothing is left behind a whole condition, so
it has the same value both ways.
-/

namespace CPreprocessor

/-! ## Operators and layout -/

section
variable {tokens : List Token}

theorem conditionTokens_cons {t : Token} (ht : t.kind ≠ .endOfInput) :
    conditionTokens (t :: tokens) =
      if t.isLayout then conditionTokens tokens else t :: conditionTokens tokens := by
  cases hlayout : t.isLayout <;> simp [conditionTokens, hlayout, ht]

theorem conditionTokens_skipLayout (h : ∀ t ∈ tokens, t.kind ≠ .endOfInput) :
    conditionTokens tokens =
      match skipLayout tokens with
      | [] => []
      | t :: rest => t :: conditionTokens rest := by
  induction tokens with
  | nil => rfl
  | cons t rest ih =>
    obtain ⟨ht, hrest⟩ := List.forall_mem_cons.mp h
    rw [conditionTokens_cons ht, skipLayout, List.dropWhile_cons]
    split
    · exact ih hrest
    · rfl

theorem kind_of_skipLayout {t : Token} {rest : List Token} (h : ∀ t ∈ tokens, t.kind ≠ .endOfInput)
    (hskip : skipLayout tokens = t :: rest) : ∀ t ∈ rest, t.kind ≠ .endOfInput := by
  have hsuffix : t :: rest <:+ tokens := hskip ▸ List.dropWhile_suffix _
  exact fun u hu => h u (hsuffix.subset (List.mem_cons_of_mem t hu))

theorem plainOperand_conditionTokens (h : ∀ t ∈ tokens, t.kind ≠ .endOfInput) :
    Defined.plainOperand (conditionTokens tokens) =
      (Defined.operand tokens).toOption.map fun (name, after) => (name, conditionTokens after) := by
  rw [conditionTokens_skipLayout h, Defined.operand]
  cases hskip : skipLayout tokens with
  | nil => rfl
  | cons t rest =>
    have hrest := kind_of_skipLayout h hskip
    cases hopened : t.isPunctuator "(" with
    | false =>
      cases ht : t.isIdentifier <;>
        simp [Defined.plainOperand, Defined.name?, hopened, ht, Except.toOption]
    | true =>
      simp only [Defined.plainOperand, hopened, if_true]
      rw [conditionTokens_skipLayout hrest]
      cases hskip : skipLayout rest with
      | nil => rfl
      | cons name after =>
        simp only
        rw [conditionTokens_skipLayout (kind_of_skipLayout hrest hskip)]
        cases hclose : skipLayout after with
        | nil => cases hname : name.isIdentifier <;> simp [Defined.name?, hname, hclose, Except.toOption]
        | cons closed tail =>
          cases hname : name.isIdentifier <;> cases hclosed : closed.isPunctuator ")" <;>
            simp [Defined.name?, hname, hclose, hclosed, Except.toOption]

/-- To answer the operators and to leave out the layout can be done in any order. -/
theorem answers_conditionTokens (isDefined : String → Bool) (h : ∀ t ∈ tokens, t.kind ≠ .endOfInput) :
    Defined.answers isDefined (conditionTokens tokens) =
      (Defined.resolve isDefined tokens).toOption.map conditionTokens := by
  have significant : ∀ t : Token, Defined.isOperator t = true → t.isLayout = false := by
    intro t ht
    simp only [Defined.isOperator, Token.isIdentifier, Bool.and_eq_true, decide_eq_true_eq] at ht
    rw [Token.isLayout, ht.1]
    rfl
  have mapped : ∀ (x : Except (Located ConditionFault) (List Token)) (f : List Token → List Token),
      (x.map f).toOption = x.toOption.map f := by
    intro x f
    cases x <;> rfl
  fun_induction Defined.resolve isDefined tokens with
  | case1 => exact Defined.answers_nil
  | case2 t rest hoperator fault hoperand =>
    obtain ⟨ht, hrest⟩ := List.forall_mem_cons.mp h
    rw [conditionTokens_cons ht, significant t hoperator, if_neg Bool.false_ne_true,
      Defined.answers_operator hoperator, plainOperand_conditionTokens hrest, hoperand]
    rfl
  | case3 t rest hoperator name after hoperand ih =>
    obtain ⟨ht, hrest⟩ := List.forall_mem_cons.mp h
    have hafter : ∀ u ∈ after, u.kind ≠ .endOfInput := fun u hu =>
      hrest u ((Defined.suffix_of_operand hoperand).subset hu)
    rw [conditionTokens_cons ht, significant t hoperator, if_neg Bool.false_ne_true,
      Defined.answers_operator hoperator, plainOperand_conditionTokens hrest, hoperand, mapped,
      Option.map_map]
    change (Defined.answers isDefined (conditionTokens after)).map _ = _
    rw [ih hafter, Option.map_map]
    rfl
  | case4 t rest hoperator ih =>
    obtain ⟨ht, hrest⟩ := List.forall_mem_cons.mp h
    have hplain := Bool.eq_false_iff.mpr hoperator
    have hcons : conditionTokens ∘ (t :: ·) =
        (if t.isLayout then id else (t :: ·)) ∘ conditionTokens := by
      funext resolved
      rw [Function.comp_apply, conditionTokens_cons ht]
      split <;> rfl
    rw [mapped, Option.map_map, hcons, ← Option.map_map, ← ih hrest, conditionTokens_cons ht]
    split
    · exact Option.map_id_apply.symm
    · exact Defined.answers_cons hplain

end

/-- An answer is read as what it says. -/
theorem Defined.integer_answer (t : Token) (answered : Bool) :
    Constant.integer (answer t answered).text = .ok (.ofBool answered) := by
  cases answered <;> cbv

/-- A cursor, where the operators that are still to be read are answered. -/
def Cursor.answered (isDefined : String → Bool) (c : Cursor) : Option Cursor :=
  (Defined.answers isDefined c.rest).map fun rest => { c with rest }

namespace Cursor

variable {isDefined : String → Bool} {c c' : Cursor}

def push (t : Token) (c : Cursor) : Cursor := { c with rest := t :: c.rest }

theorem answered_nil (h : c.rest = []) : c.answered isDefined = some c := by
  obtain ⟨rest, undefined⟩ := c
  cases h
  rw [answered, Defined.answers_nil]
  rfl

theorem answered_cons {t : Token} {rest : List Token} (h : c.rest = t :: rest)
    (ht : Defined.isOperator t = false) :
    c.answered isDefined = (c.advance.answered isDefined).map (push t) := by
  rw [answered, h, Defined.answers_cons ht, answered, advance, h, Option.map_map, Option.map_map]
  rfl

theorem answered_operator {t : Token} {rest : List Token} (h : c.rest = t :: rest)
    (ht : Defined.isOperator t = true) :
    c.answered isDefined = (Defined.plainOperand rest).bind fun (name, after) =>
      (answered isDefined { c with rest := after }).map (push (Defined.answer t (isDefined name))) := by
  rw [answered, h, Defined.answers_operator ht, Option.map_bind]
  congr 1
  funext found
  simp only [Function.comp_apply, answered, Option.map_map]
  rfl

/-- The next token, if it is a punctuator. -/
def punctuator? (c : Cursor) : Option Token := c.rest.head?.filter (·.kind = .punctuator)

theorem at?_eq (c : Cursor) (text : String) : c.at? text = c.punctuator?.any (·.text = text) := by
  obtain ⟨rest, undefined⟩ := c
  cases rest with
  | nil => rfl
  | cons t rest =>
    by_cases hkind : t.kind = .punctuator <;>
      simp [at?, punctuator?, Token.isPunctuator, Option.filter, hkind]

theorem operator?_eq (c : Cursor) (level : Nat) :
    c.operator? level = c.punctuator?.bind fun t =>
      ((BinaryOperator.ofText? t.text).filter (·.level = level)).map fun op => (op, t.location) := by
  obtain ⟨rest, undefined⟩ := c
  cases rest with
  | nil => rfl
  | cons t rest =>
    by_cases hkind : t.kind = .punctuator <;> simp [operator?, punctuator?, Option.filter, hkind]

theorem unary?_eq (c : Cursor) :
    c.unary? = c.punctuator?.bind fun t => UnaryOperator.ofText? t.text := by
  obtain ⟨rest, undefined⟩ := c
  cases rest with
  | nil => rfl
  | cons t rest =>
    by_cases hkind : t.kind = .punctuator <;> simp [unary?, punctuator?, Option.filter, hkind]

/-- Nothing is left after the answers only where nothing was left. -/
theorem answered_eq_some_nil_iff {undefined : List Token} :
    c.answered isDefined = some ⟨[], undefined⟩ ↔ c = ⟨[], undefined⟩ := by
  refine ⟨fun h => ?_, fun h => by rw [h, answered_nil rfl]⟩
  obtain ⟨rest, names⟩ := c
  obtain ⟨after, hafter, heq⟩ := Option.map_eq_some_iff.mp h
  cases heq
  cases Defined.answers_eq_some_nil_iff.mp hafter
  rfl

/-- Answers stand where operators stood, and neither are punctuators. -/
theorem punctuator?_answered (h : c.answered isDefined = some c') :
    c'.punctuator? = c.punctuator? := by
  cases hrest : c.rest with
  | nil =>
    rw [answered_nil hrest] at h
    cases h
    rfl
  | cons t rest =>
    cases ht : Defined.isOperator t with
    | false =>
      rw [answered_cons hrest ht] at h
      obtain ⟨d, -, rfl⟩ := Option.map_eq_some_iff.mp h
      rw [punctuator?, punctuator?, hrest]
      rfl
    | true =>
      rw [answered_operator hrest ht] at h
      obtain ⟨⟨name, after⟩, -, h⟩ := Option.bind_eq_some_iff.mp h
      obtain ⟨d, -, rfl⟩ := Option.map_eq_some_iff.mp h
      have hkind : t.kind = .identifier := by
        simp only [Defined.isOperator, Token.isIdentifier, Bool.and_eq_true] at ht
        simpa using ht.1
      simp [punctuator?, hrest, push, Defined.answer, hkind, Option.filter]

theorem length_advance_of_punctuator {t : Token} (h : c.punctuator? = some t) :
    c.advance.rest.length < c.rest.length :=
  length_advance_of_cons (rest_of_head? (Option.filter_eq_some_iff.mp h).1)

end Cursor

/-- What was read from `c`, with what is left answered, is what `read` reads from `c` answered. -/
def Commutes (isDefined : String → Bool) (c : Cursor) (result : Except Failure (Value × Cursor))
    (read : Cursor → Except Failure (Value × Cursor)) : Prop :=
  ((c.answered isDefined).bind fun c' => (read c').toOption) =
    result.toOption.bind fun r => (r.2.answered isDefined).map (r.1, ·)

namespace Commutes

variable {isDefined : String → Bool} {c : Cursor} {result x y : Except Failure (Value × Cursor)}
  {read f g : Cursor → Except Failure (Value × Cursor)}

/-- What is done with what was read. -/
theorem bind {f g : Value → Cursor → Except Failure (Value × Cursor)} :
    Commutes isDefined c result read →
    (∀ v d, result = .ok (v, d) → Commutes isDefined d (f v d) (g v)) →
    Commutes isDefined c
      (match result with
      | .error failure => .error failure
      | .ok (v, d) => f v d)
      (fun c' =>
        match read c' with
        | .error failure => .error failure
        | .ok (v, d) => g v d) := by
  intro h hf
  have hright : ((c.answered isDefined).bind fun c' =>
      Except.toOption (match read c' with
        | .error failure => .error failure
        | .ok (v, d) => g v d)) =
      ((c.answered isDefined).bind fun c' => (read c').toOption).bind fun r =>
        (g r.1 r.2).toOption := by
    rw [Option.bind_assoc]
    congr 1
    funext c'
    cases read c' <;> rfl
  rw [Commutes, hright, h]
  cases result with
  | error failure => rfl
  | ok r =>
    change ((r.2.answered isDefined).map (r.1, ·)).bind _ = _
    rw [Option.bind_map]
    exact hf r.1 r.2 rfl

theorem error {failure : Failure} {f : Cursor → Failure} :
    Commutes isDefined c (.error failure) fun c' => .error (f c') := by
  rw [Commutes]
  cases c.answered isDefined <;> rfl

theorem ok {v : Value} : Commutes isDefined c (.ok (v, c)) fun c' => .ok (v, c') := by
  rw [Commutes]
  change _ = (c.answered isDefined).map (v, ·)
  cases c.answered isDefined <;> rfl

theorem congr (h : Commutes isDefined c x f) (hg : ∀ c', c.answered isDefined = some c' → g c' = f c') :
    Commutes isDefined c x g := by
  rw [Commutes] at h ⊢
  rw [← h]
  cases hc : c.answered isDefined with
  | none => rfl
  | some c' => exact congrArg Except.toOption (hg c' hc)

/-- A token that is no operator stays where it is. -/
theorem of_cons {t : Token} {rest : List Token} (hrest : c.rest = t :: rest)
    (ht : Defined.isOperator t = false) (h : Commutes isDefined c.advance result fun d => read (d.push t)) :
    Commutes isDefined c result read := by
  rw [Commutes, Cursor.answered_cons hrest ht, Option.bind_map]
  exact h

theorem of_punctuator {t : Token} (h : c.punctuator? = some t) (hf : Commutes isDefined c.advance x f) :
    Commutes isDefined c x fun c' => f c'.advance := by
  obtain ⟨hhead, hkind⟩ := Option.filter_eq_some_iff.mp h
  refine of_cons (Cursor.rest_of_head? hhead) ?_ hf
  rw [decide_eq_true_eq] at hkind
  simp [Defined.isOperator, Token.isIdentifier, hkind]

/-- A test for a punctuator goes the same way on both sides. -/
theorem at? {text : String} :
    (∀ t, c.punctuator? = some t → Commutes isDefined c x f) → Commutes isDefined c y g →
    Commutes isDefined c (if c.at? text then x else y)
      (fun c' => if c'.at? text then f c' else g c') := by
  intro hf hg
  have hsame : ∀ c', c.answered isDefined = some c' → c'.at? text = c.at? text := fun c' hc' => by
    rw [Cursor.at?_eq, Cursor.at?_eq, Cursor.punctuator?_answered hc']
  cases hat : c.at? text with
  | true =>
    obtain ⟨t, ht⟩ : ∃ t, c.punctuator? = some t := by
      rw [Cursor.at?_eq] at hat
      cases ht : c.punctuator? with
      | none => rw [ht] at hat; cases hat
      | some t => exact ⟨t, rfl⟩
    exact (hf t ht).congr fun c' hc' => by rw [hsame c' hc', hat, if_pos rfl]
  | false => exact hg.congr fun c' hc' => by rw [hsame c' hc', hat, if_neg nofun]

theorem unary? {x : UnaryOperator → Except Failure (Value × Cursor)}
    {f : UnaryOperator → Cursor → Except Failure (Value × Cursor)} :
    (∀ op t, c.unary? = some op → c.punctuator? = some t → Commutes isDefined c (x op) (f op)) →
    Commutes isDefined c y g →
    Commutes isDefined c
      (match c.unary? with
      | some op => x op
      | none => y)
      (fun c' =>
        match c'.unary? with
        | some op => f op c'
        | none => g c') := by
  intro hf hg
  have hsame : ∀ c', c.answered isDefined = some c' → c'.unary? = c.unary? := fun c' hc' => by
    rw [Cursor.unary?_eq, Cursor.unary?_eq, Cursor.punctuator?_answered hc']
  cases hop : c.unary? with
  | none => exact hg.congr fun c' hc' => by rw [hsame c' hc', hop]
  | some op =>
    rw [Cursor.unary?_eq] at hop
    obtain ⟨t, ht, -⟩ := Option.bind_eq_some_iff.mp hop
    rw [← Cursor.unary?_eq] at hop
    exact (hf op t hop ht).congr fun c' hc' => by rw [hsame c' hc', hop]

theorem operator? {level : Nat} {x : BinaryOperator → Location → Except Failure (Value × Cursor)}
    {f : BinaryOperator → Location → Cursor → Except Failure (Value × Cursor)} :
    (∀ op place t, c.operator? level = some (op, place) → c.punctuator? = some t →
      Commutes isDefined c (x op place) (f op place)) →
    Commutes isDefined c y g →
    Commutes isDefined c
      (match c.operator? level with
      | none => y
      | some (op, place) => x op place)
      (fun c' =>
        match c'.operator? level with
        | none => g c'
        | some (op, place) => f op place c') := by
  intro hf hg
  have hsame : ∀ c', c.answered isDefined = some c' → c'.operator? level = c.operator? level :=
    fun c' hc' => by
      rw [Cursor.operator?_eq, Cursor.operator?_eq, Cursor.punctuator?_answered hc']
  cases hop : c.operator? level with
  | none => exact hg.congr fun c' hc' => by rw [hsame c' hc', hop]
  | some found =>
    rw [Cursor.operator?_eq] at hop
    obtain ⟨t, ht, -⟩ := Option.bind_eq_some_iff.mp hop
    rw [← Cursor.operator?_eq] at hop
    exact (hf found.1 found.2 t hop ht).congr fun c' hc' => by rw [hsame c' hc', hop]

end Commutes

namespace Evaluator

variable {e e' : Evaluator} {m : Mode} {c : Cursor} {t : Token} {rest : List Token}

/-- The evaluator applies an operator to the same name, when it comes to it. -/
theorem toOption_readDefined (e : Evaluator) (c : Cursor) (keyword : Location) :
    (e.readDefined c keyword).toOption = (Defined.plainOperand c.rest).map fun (name, after) =>
      (.ofBool (e.isDefined name), { c with rest := after }) := by
  rw [readDefined_eq]
  obtain ⟨rest, undefined⟩ := c
  cases rest with
  | nil => rfl
  | cons t rest =>
    cases hopened : t.isPunctuator "(" with
    | false =>
      cases ht : t.isIdentifier <;>
        simp [Cursor.at?, Cursor.advance, Defined.plainOperand, Option.filter, Except.toOption, hopened,
          ht]
    | true =>
      have hat : Cursor.at? ⟨t :: rest, undefined⟩ "(" = true := hopened
      simp only [hat, Defined.plainOperand, hopened, if_true, Cursor.advance, List.tail_cons]
      rcases rest with _ | ⟨name, _ | ⟨closed, after⟩⟩
      · rfl
      · cases hname : name.isIdentifier <;> simp [Cursor.at?, Option.filter, Except.toOption, hname]
      · cases hname : name.isIdentifier <;> cases hclosed : closed.isPunctuator ")" <;>
          simp [Cursor.at?, Option.filter, Except.toOption, hname, hclosed]

theorem readPrimary_answer (e : Evaluator) (m : Mode) (t : Token) (answered : Bool) (c : Cursor) :
    e.readPrimary m (c.push (Defined.answer t answered)) = .ok (.ofBool answered, c) := by
  have hvalue := Defined.integer_answer t answered
  rw [readPrimary_eq e m _ rfl]
  simp only [Defined.answer] at hvalue ⊢
  rw [hvalue]
  rfl

/-- An operator that is answered later has the value that its answer has. -/
theorem commutes_operator (hrest : c.rest = t :: rest) (ht : Defined.isOperator t = true) :
    Commutes e.isDefined c (e.readPrimary m c) (e'.readPrimary m) := by
  rw [Commutes, Cursor.answered_operator hrest ht, readPrimary_eq e m c hrest]
  simp only [Defined.isOperator, Token.isIdentifier, Bool.and_eq_true, decide_eq_true_eq] at ht
  obtain ⟨hkind, htext⟩ := ht
  simp only [hkind, htext, if_true, toOption_readDefined]
  rw [Option.bind_assoc, Option.bind_map, Cursor.advance, hrest, List.tail_cons]
  congr 1
  funext found
  simp only [Option.bind_map, Function.comp_apply, readPrimary_answer]
  cases Cursor.answered e.isDefined { c with rest := found.2 } <;> rfl

theorem commutes_name {v : Value} :
    Commutes e.isDefined c (.ok (v, { c with undefined := t :: c.undefined })) fun c' =>
      .ok (v, { c' with undefined := t :: c'.undefined }) := by
  rw [Commutes]
  change _ = Option.map (v, ·) (Cursor.answered _ _)
  rw [Cursor.answered, Cursor.answered]
  cases Defined.answers e.isDefined c.rest <;> rfl

/-- Whether a function that reads after the operators are answered reads what it reads before, and what is
left then is answered. -/
def Answered (e e' : Evaluator) (part : Part) (m : Mode) (c : Cursor) : Prop :=
  Commutes e.isDefined c (e.read part m c) (e'.read part m)

theorem answered_conditional (hoperators : Answered e e' (.operators 0) m c)
    (h : ∀ m' c', c'.rest.length < c.rest.length → Answered e e' .conditional m' c') :
    Answered e e' .conditional m c := by
  change Commutes _ _ (e.readConditional m c) (e'.readConditional m)
  rw [readConditional_eq e, funext (readConditional_eq e' m)]
  refine Commutes.bind hoperators fun a c₁ hread => ?_
  have hlength₁ := length_of_readOperators hread
  refine .at? (fun mark hmark => ?_) .ok
  by_cases hnesting : m.nesting = 0
  · simp only [if_pos hnesting]
    exact .error
  simp only [if_neg hnesting]
  have hnext₁ := Cursor.length_advance_of_punctuator hmark
  refine (Commutes.of_punctuator hmark (h { m with
    live := m.live && a.truthy, nesting := m.nesting - 1 } c₁.advance (by omega))).bind
    fun v c₃ hread => ?_
  have hlength₃ := length_of_readConditional hread
  refine .at? (fun colon hcolon => ?_) .error
  have hnext₃ := Cursor.length_advance_of_punctuator hcolon
  exact (Commutes.of_punctuator hcolon (h { m with
    live := m.live && !a.truthy, nesting := m.nesting - 1 } c₃.advance (by omega))).bind
    fun w c₅ _ => .ok

theorem answered_operators {level : Nat} (hlt : level < BinaryOperator.levels)
    (hoperators : Answered e e' (.operators (level + 1)) m c)
    (h : ∀ left m' c', c'.rest.length < c.rest.length → Answered e e' (.more level left) m' c') :
    Answered e e' (.operators level) m c := by
  change Commutes _ _ (e.readOperators m c level) (e'.readOperators m · level)
  rw [readOperators_eq e, funext (readOperators_eq e' m · level)]
  simp only [if_pos hlt]
  exact Commutes.bind hoperators fun a c₁ hread => h a m c₁ (length_of_readOperators hread)

theorem answered_tightest {level : Nat} (hle : ¬ level < BinaryOperator.levels)
    (hunary : Answered e e' .unary m c) : Answered e e' (.operators level) m c := by
  change Commutes _ _ (e.readOperators m c level) (e'.readOperators m · level)
  rw [readOperators_eq e, funext (readOperators_eq e' m · level)]
  simp only [if_neg hle]
  exact hunary

theorem answered_more {level : Nat} {left : Value}
    (hoperators : ∀ m' c', c'.rest.length < c.rest.length →
      Answered e e' (.operators (level + 1)) m' c')
    (h : ∀ left' m' c', c'.rest.length < c.rest.length → Answered e e' (.more level left') m' c') :
    Answered e e' (.more level left) m c := by
  change Commutes _ _ (e.readMore m c level left) (e'.readMore m · level left)
  rw [readMore_eq e, funext (readMore_eq e' m · level left)]
  refine .operator? (fun op place mark hop hmark => ?_) .ok
  have hlength := Cursor.length_advance_of_operator? hop
  refine (Commutes.of_punctuator hmark (hoperators { m with live := m.live && op.evaluatesRight left }
    c.advance hlength)).bind fun b c₂ hread => ?_
  have hlength₂ := length_of_readOperators hread
  cases (if m.live then op.apply left b else .ok (op.skip left b)) with
  | error cause => exact .error
  | ok v => exact h v m c₂ (by omega)

theorem answered_unary (hprimary : Answered e e' .primary m c)
    (h : ∀ m' c', c'.rest.length < c.rest.length → Answered e e' .unary m' c') :
    Answered e e' .unary m c := by
  change Commutes _ _ (e.readUnary m c) (e'.readUnary m)
  rw [readUnary_eq e, funext (readUnary_eq e' m)]
  refine .unary? (fun op mark hop hmark => ?_) hprimary
  have hlength := Cursor.length_advance_of_unary? hop
  by_cases hnesting : m.nesting = 0
  · simp only [if_pos hnesting]
    exact .error
  simp only [if_neg hnesting]
  exact (Commutes.of_punctuator hmark (h { m with nesting := m.nesting - 1 } c.advance hlength)).bind
    fun v c₂ _ => .ok

/-- A token that is no operator is read where it stands. -/
theorem commutes_readPrimary (hrest : c.rest = t :: rest) (ht : Defined.isOperator t = false)
    (h : ∀ m' c', c'.rest.length < c.rest.length → Answered e e' .conditional m' c') :
    Commutes e.isDefined c.advance (e.readPrimary m c) fun d => e'.readPrimary m (d.push t) := by
  rw [readPrimary_eq e m c hrest, funext fun d : Cursor => readPrimary_eq e' m (d.push t) rfl]
  cases hkind : t.kind with
  | number =>
    cases Constant.integer t.text with
    | error cause => exact .error
    | ok v => exact .ok
  | character =>
    cases Constant.character t.text with
    | error cause => exact .error
    | ok v => exact .ok
  | identifier =>
    have htext : t.text ≠ "defined" := by
      simpa [Defined.isOperator, Token.isIdentifier, hkind] using ht
    simp only [if_neg htext]
    cases m.live with
    | true => exact commutes_name
    | false => exact .ok
  | string => exact .error
  | _ =>
    simp only
    cases t.isPunctuator "(" with
    | false => exact .error
    | true =>
      by_cases hdeep : ConditionFault.parenthesisLimit ≤ m.parentheses
      · simp only [if_pos hdeep]
        exact .error
      simp only [if_neg hdeep]
      refine Commutes.bind (h { m with parentheses := m.parentheses + 1 } c.advance
        (Cursor.length_advance_of_cons hrest)) fun v c₂ _ => ?_
      exact .at? (fun closed hclosed => .of_punctuator hclosed .ok) .error

theorem answered_primary
    (h : ∀ m' c', c'.rest.length < c.rest.length → Answered e e' .conditional m' c') :
    Answered e e' .primary m c := by
  change Commutes _ _ (e.readPrimary m c) (e'.readPrimary m)
  cases hrest : c.rest with
  | nil =>
    rw [readPrimary_nil e m c hrest, Commutes, Cursor.answered_nil hrest]
    change (e'.readPrimary m c).toOption = none
    rw [readPrimary_nil e' m c hrest]
    rfl
  | cons t rest =>
    cases ht : Defined.isOperator t with
    | true => exact commutes_operator hrest ht
    | false => exact .of_cons hrest ht (commutes_readPrimary hrest ht h)

/-- To read after the operators are answered is to read, and to answer what is left then. -/
theorem commutes (e e' : Evaluator) (part : Part) (m : Mode) (c : Cursor) :
    (∀ keyword, part ≠ .defined keyword) → Answered e e' part m c := by
  induction part, m, c using Part.descent with
  | conditional m c hoperators ih =>
    exact fun _ => answered_conditional (hoperators nofun) fun m c hlt => ih m c hlt nofun
  | operators level m c hlt hoperators ih =>
    exact fun _ => answered_operators hlt (hoperators nofun) fun left m c hlt => ih left m c hlt nofun
  | tightest level m c hle hunary => exact fun _ => answered_tightest hle (hunary nofun)
  | more level left m c hoperators ih =>
    exact fun _ => answered_more (fun m c hlt => hoperators m c hlt nofun)
      fun left m c hlt => ih left m c hlt nofun
  | unary m c hprimary ih =>
    exact fun _ => answered_unary (hprimary nofun) fun m c hlt => ih m c hlt nofun
  | primary m c hdefined ih => exact fun _ => answered_primary fun m c hlt => ih m c hlt nofun
  | defined keyword m c => exact fun h => absurd rfl (h keyword)

end Evaluator

/-- A condition that has a value was read to its end. -/
theorem exists_evaluate_iff_readConditional {s : Setting} {tokens : List Token}
    (h : conditionTokens tokens ≠ []) :
    ∃ e : Evaluator, e.isDefined = s.isDefined ∧ ∀ v names,
      evaluate s tokens = ⟨.ok v, names⟩ ↔
        (e.readConditional { nesting := s.nestingLimit } { rest := conditionTokens tokens }).toOption =
          some (v, ⟨[], names.reverse⟩) := by
  obtain ⟨t, rest, hcons⟩ := List.exists_cons_of_ne_nil h
  refine ⟨s.evaluator t rest, rfl, fun v names => ?_⟩
  rw [evaluate_of_conditionTokens hcons, hcons]
  cases (s.evaluator t rest).readConditional { nesting := s.nestingLimit } { rest := t :: rest } with
  | error failure => simp [Except.toOption]
  | ok r =>
    obtain ⟨w, rest, undefined⟩ := r
    cases rest with
    | nil => simp [Except.toOption, List.reverse_eq_iff]
    | cons u rest => simp [Except.toOption]

/-- A condition was read to its end if nothing is left of it that could be answered. -/
theorem bind_answered_eq_some_nil_iff (isDefined : String → Bool)
    {result : Except Failure (Value × Cursor)} {v : Value} {undefined : List Token} :
    (result.toOption.bind fun r => (r.2.answered isDefined).map (r.1, ·)) = some (v, ⟨[], undefined⟩) ↔
      result.toOption = some (v, ⟨[], undefined⟩) := by
  cases result with
  | error failure => exact Iff.rfl
  | ok r =>
    obtain ⟨w, d⟩ := r
    change (d.answered isDefined).map (w, ·) = some (v, ⟨[], undefined⟩) ↔
      some (w, d) = some (v, ⟨[], undefined⟩)
    rw [Option.map_eq_some_iff, Option.some.injEq, Prod.mk.injEq, ← Cursor.answered_eq_some_nil_iff]
    constructor
    · rintro ⟨d', hd, heq⟩
      cases heq
      exact ⟨rfl, hd⟩
    · rintro ⟨rfl, hd⟩
      exact ⟨_, hd, rfl⟩

/-- A condition has the same value, and the same undefined names are evaluated in it, whether its
operators are answered before it is evaluated or while it is. -/
theorem evaluate_resolve_iff (s : Setting) (tokens : List Token)
    (h : ∀ t ∈ tokens, t.kind ≠ .endOfInput) (v : Value) (names : List Token) :
    (∃ resolved, Defined.resolve s.isDefined tokens = .ok resolved ∧
      evaluate s resolved = ⟨.ok v, names⟩) ↔ evaluate s tokens = ⟨.ok v, names⟩ := by
  have hanswers := answers_conditionTokens s.isDefined h
  by_cases hempty : conditionTokens tokens = []
  · rw [evaluate_of_nil hempty]
    refine ⟨?_, nofun⟩
    rintro ⟨resolved, hresolved, hvalue⟩
    rw [hempty, Defined.answers_nil, hresolved] at hanswers
    rw [evaluate_of_nil (Option.some.inj hanswers).symm] at hvalue
    cases hvalue
  obtain ⟨e, he, hiff⟩ := exists_evaluate_iff_readConditional (s := s) hempty
  have hcommutes : ∀ e' : Evaluator, Commutes s.isDefined { rest := conditionTokens tokens }
      (e.readConditional { nesting := s.nestingLimit } { rest := conditionTokens tokens })
      (e'.readConditional { nesting := s.nestingLimit }) := fun e' =>
    he ▸ e.commutes e' .conditional { nesting := s.nestingLimit } { rest := conditionTokens tokens } nofun
  rw [hiff, ← bind_answered_eq_some_nil_iff s.isDefined]
  cases hresolve : Defined.resolve s.isDefined tokens with
  | error fault =>
    rw [hresolve] at hanswers
    rw [← hcommutes e, Cursor.answered, hanswers]
    exact ⟨nofun, nofun⟩
  | ok resolved =>
    rw [hresolve] at hanswers
    have hresolved : conditionTokens resolved ≠ [] := fun hnil =>
      hempty (Defined.answers_eq_some_nil_iff.mp (hanswers.trans (congrArg some hnil)))
    obtain ⟨e', -, hiff'⟩ := exists_evaluate_iff_readConditional (s := s) hresolved
    rw [← hcommutes e', Cursor.answered, hanswers]
    constructor
    · rintro ⟨_, ⟨⟩, hvalue⟩
      exact (hiff' v names).mp hvalue
    · exact fun hread => ⟨resolved, rfl, (hiff' v names).mpr hread⟩

/-- The condition `defined( X) && Y`, where `X` is defined, has the value 0 both ways, and `Y` is
evaluated. -/
theorem evaluate_resolve_and :
    let tokens : List Token := [⟨.identifier, "defined", default, ∅, false⟩,
      ⟨.punctuator, "(", default, ∅, false⟩, ⟨.whitespace, " ", default, ∅, false⟩,
      ⟨.identifier, "X", default, ∅, false⟩, ⟨.punctuator, ")", default, ∅, false⟩,
      ⟨.punctuator, "&&", default, ∅, false⟩, ⟨.identifier, "Y", default, ∅, false⟩]
    ∃ resolved, Defined.resolve (· = "X") tokens = .ok resolved ∧
      evaluate { isDefined := (· = "X") } resolved =
        ⟨.ok ⟨0, false⟩, [⟨.identifier, "Y", default, ∅, false⟩]⟩ := by
  intro tokens
  exact (evaluate_resolve_iff { isDefined := (· = "X") } tokens (by simp [tokens]) _ _).mpr (by cbv)

end CPreprocessor
