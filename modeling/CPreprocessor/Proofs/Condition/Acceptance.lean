import Mathlib
import CPreprocessor.Proofs.Condition.Evaluation
import CPreprocessor.Proofs.Condition.FaultPlace

/-!
# Conditions are evaluated by their grammar
-/

namespace CPreprocessor

/-! ## What is evaluated is read -/

/-- The character literals among the tokens are character constants. -/
def Lexed (ts : List Token) : Prop :=
  ∀ t ∈ ts, t.kind = .character → ∃ v, CharacterConstant t.text.toList v

theorem Lexed.of_suffix {ts rest : List Token} (h : Lexed ts) (hrest : rest <:+ ts) : Lexed rest :=
  fun t ht => h t (hrest.subset ht)

theorem Reads.suffix {g : Goal} {ts rest : List Token} {x : Expression} (h : Reads g ts x rest) :
    rest <:+ ts := by
  obtain ⟨read, rfl, -⟩ := h.derived
  exact List.suffix_append ..

/-- An expression that is nested no deeper than the mode allows. -/
structure Expression.Fits (x : Expression) (m : Mode) : Prop where
  parentheses : x.parentheses ≤ ConditionFault.parenthesisLimit - m.parentheses
  nesting : x.nesting ≤ m.nesting

/-- Whatever `read` accepts of less than `n` tokens is read by the descent. -/
def Goal.Sound (g : Goal) (read : Mode → Cursor → Except Failure (Value × Cursor)) (n : Nat) : Prop :=
  ∀ m c v c', c.rest.length < n → Lexed c.rest → read m c = .ok (v, c') →
    ∃ x, Reads g c.rest x c'.rest ∧ x.Fits m

namespace Evaluator

variable {e : Evaluator} {n : Nat}

theorem sound_unary (h : Goal.primary.Sound e.readPrimary n) : Goal.unary.Sound e.readUnary n := by
  intro m c
  generalize hlength : c.rest.length = length
  induction length using Nat.strongRecOn generalizing m c with
  | ind length ih =>
    intro v c' hn hlexed hread
    rw [readUnary_eq] at hread
    cases hop : c.unary? with
    | none =>
      rw [hop] at hread
      obtain ⟨x, hx, hfits⟩ := h m c v c' (by omega) hlexed hread
      exact ⟨x, .operand hx (Cursor.stop_of_unary? hop), hfits⟩
    | some op =>
      rw [hop] at hread
      obtain ⟨t, hrest, ht⟩ := Cursor.rest_of_unary? hop
      have hcons := congrArg List.length hrest
      rw [List.length_cons] at hcons
      simp only at hread
      split at hread
      · cases hread
      rename_i hnesting
      split at hread
      · cases hread
      rename_i w c₂ hr
      cases hread
      obtain ⟨x, hx, hfits⟩ := ih _ (by omega) _ _ rfl _ _ (by omega)
        (hlexed.of_suffix (by rw [hrest]; exact List.suffix_cons ..)) hr
      have := hfits.nesting
      simp only at this
      refine ⟨.unary op x, by rw [hrest]; exact .unary ht hx, hfits.parentheses, ?_⟩
      simp only [Expression.nesting]
      omega

theorem sound_more {k : Nat} (h : (Goal.operators (k + 1)).Sound (e.readOperators · · (k + 1)) n)
    (m : Mode) (c c' : Cursor) (a v : Value) (hn : c.rest.length < n) (hlexed : Lexed c.rest)
    (hread : e.readMore m c k a = .ok (v, c')) (l : Expression) (hl : l.Fits m) :
    ∃ x, Reads (.more k l) c.rest x c'.rest ∧ x.Fits m := by
  generalize hlength : c.rest.length = length
  induction length using Nat.strongRecOn generalizing c a l with
  | ind length ih =>
    rw [readMore_eq] at hread
    cases hop : c.operator? k with
    | none =>
      rw [hop] at hread
      cases hread
      exact ⟨l, .stop (Cursor.stop_of_operator? hop), hl⟩
    | some found =>
      obtain ⟨op, place⟩ := found
      rw [hop] at hread
      obtain ⟨t, hrest, ht, level, rfl⟩ := Cursor.rest_of_operator? hop
      have hcons := congrArg List.length hrest
      rw [List.length_cons] at hcons
      have hlexed' : Lexed c.advance.rest :=
        hlexed.of_suffix (by rw [hrest]; exact List.suffix_cons ..)
      simp only at hread
      split at hread
      · cases hread
      rename_i b c₂ hr
      obtain ⟨r, hr, hfits⟩ := h _ _ _ _ (by omega) hlexed' hr
      split at hread
      · cases hread
      have hle := hr.suffix.length_le
      have hbinary : (Expression.binary op t.location l r).Fits m := by
        have := hl.parentheses
        have := hl.nesting
        have := hfits.parentheses
        have := hfits.nesting
        constructor <;> simp only [Expression.parentheses, Expression.nesting] at * <;> omega
      obtain ⟨x, hx, hfits⟩ := ih _ (by omega) c₂ _ (by omega) (hlexed'.of_suffix hr.suffix) hread _
        hbinary rfl
      exact ⟨x, by rw [hrest]; exact .step ht level hr hx, hfits⟩

theorem sound_operators (h : Goal.unary.Sound e.readUnary n) (k : Nat)
    (hk : k ≤ BinaryOperator.levels) : (Goal.operators k).Sound (e.readOperators · · k) n := by
  generalize hd : BinaryOperator.levels - k = d
  induction d generalizing k with
  | zero =>
    obtain rfl : k = BinaryOperator.levels := by omega
    intro m c v c' hn hlexed hread
    simp only at hread
    rw [readOperators_eq, if_neg (Nat.lt_irrefl _)] at hread
    obtain ⟨x, hx, hfits⟩ := h m c v c' hn hlexed hread
    exact ⟨x, .tightest hx, hfits⟩
  | succ d ih =>
    have hlt : k < BinaryOperator.levels := by omega
    have hoperators := ih (k + 1) hlt (by omega)
    intro m c v c' hn hlexed hread
    simp only at hread
    rw [readOperators_eq, if_pos hlt] at hread
    split at hread
    · cases hread
    rename_i a c₁ hl
    obtain ⟨l, hl, hfits⟩ := hoperators m c a c₁ hn hlexed hl
    have hle := hl.suffix.length_le
    obtain ⟨x, hx, hfits⟩ := sound_more hoperators m c₁ c' a v (by omega)
      (hlexed.of_suffix hl.suffix) hread l hfits
    exact ⟨x, .chain hlt hl hx, hfits⟩

theorem leaf_of_readDefined {keyword : Token} {c c' : Cursor} {v : Value}
    (hkeyword : keyword.kind = .identifier) (htext : keyword.text = "defined")
    (h : e.readDefined c keyword.location = .ok (v, c')) :
    ∃ name ts, Expression.Leaf ts (.defined name) ∧ keyword :: c.rest = ts ++ c'.rest := by
  rw [readDefined_eq] at h
  by_cases hopened : c.at? "(" = true
  · simp only [hopened, if_true] at h
    split at h
    · cases h
    rename_i t hname
    obtain ⟨hhead, hkind⟩ := Option.filter_eq_some_iff.mp hname
    split at h
    · rename_i hclosed
      cases h
      obtain ⟨opened, hrest, hopened⟩ := Cursor.rest_of_at? hopened
      obtain ⟨closed, hrest', hclosed⟩ := Cursor.rest_of_at? hclosed
      refine ⟨t.text, [keyword, opened, t, closed],
        .definedIn hkeyword htext hopened (by simpa [Token.isIdentifier] using hkind) hclosed, ?_⟩
      rw [hrest, Cursor.rest_of_head? hhead, hrest']
      rfl
    · cases h
  · simp only [hopened] at h
    split at h
    · cases h
    rename_i t hname
    obtain ⟨hhead, hkind⟩ := Option.filter_eq_some_iff.mp hname
    cases h
    refine ⟨t.text, [keyword, t],
      .defined hkeyword htext (by simpa [Token.isIdentifier] using hkind), ?_⟩
    exact congrArg (keyword :: ·) (Cursor.rest_of_head? hhead)

theorem sound_primary (h : Goal.conditional.Sound e.readConditional n) :
    Goal.primary.Sound e.readPrimary (n + 1) := by
  intro m c v c' hn hlexed hread
  cases hhead : c.rest.head? with
  | none =>
    rw [readPrimary_nil e m c (List.head?_eq_none_iff.mp hhead)] at hread
    cases hread
  | some t =>
    have hrest := Cursor.rest_of_head? hhead
    have hcons := congrArg List.length hrest
    rw [List.length_cons] at hcons
    have fits : ∀ {x : Expression}, x.parentheses = 0 → x.nesting = 0 → x.Fits m :=
      fun hp hn => ⟨by omega, by omega⟩
    rw [readPrimary_eq e m c hrest] at hread
    rw [hrest]
    split at hread
    · rename_i kind
      split at hread
      · cases hread
      · rename_i hw
        cases hread
        exact ⟨.constant v, .leaf (.number kind (Constant.integer_eq_ok_iff.mp hw)) rfl,
          fits rfl rfl⟩
    · rename_i kind
      split at hread
      · cases hread
      · rename_i hw
        cases hread
        have hex := hlexed t (by rw [hrest]; exact List.mem_cons_self ..) kind
        exact ⟨.constant v, .leaf (.character kind ((Constant.character_eq_ok_iff hex).mp hw)) rfl,
          fits rfl rfl⟩
    · rename_i kind
      split at hread
      · rename_i htext
        obtain ⟨name, ts, hleaf, hsplit⟩ := leaf_of_readDefined kind htext hread
        exact ⟨.defined name, .leaf hleaf hsplit, fits rfl rfl⟩
      · rename_i htext
        split at hread <;> cases hread <;>
          exact ⟨.name t, .leaf (.name kind htext) rfl, fits rfl rfl⟩
    · cases hread
    · split at hread
      · rename_i hopened
        split at hread
        · cases hread
        rename_i hdeep
        split at hread
        · cases hread
        rename_i w c₂ hr
        split at hread
        · rename_i hclosed
          cases hread
          obtain ⟨closed, hrest₂, hclosed⟩ := Cursor.rest_of_at? hclosed
          obtain ⟨x, hx, hfits⟩ := h _ _ _ _ (by omega)
            (hlexed.of_suffix (by rw [hrest]; exact List.suffix_cons ..)) hr
          rw [hrest₂] at hx
          refine ⟨.group x, .group hopened hx hclosed, ?_, hfits.nesting⟩
          have := hfits.parentheses
          simp only [Expression.parentheses] at *
          omega
        · cases hread
      · cases hread

theorem sound_conditional_succ (h : Goal.conditional.Sound e.readConditional n)
    (hoperators : (Goal.operators 0).Sound (e.readOperators · · 0) (n + 1)) :
    Goal.conditional.Sound e.readConditional (n + 1) := by
  intro m c v c' hn hlexed hread
  rw [readConditional_eq] at hread
  split at hread
  · cases hread
  rename_i a c₁ hr
  obtain ⟨x, hx, hfits⟩ := hoperators m c a c₁ hn hlexed hr
  have hlexed₁ := hlexed.of_suffix hx.suffix
  have hle := hx.suffix.length_le
  split at hread
  · rename_i hmark
    obtain ⟨mark, hrest, hmark⟩ := Cursor.rest_of_at? hmark
    have hcons := congrArg List.length hrest
    rw [List.length_cons] at hcons
    have hlexed₁' : Lexed c₁.advance.rest :=
      hlexed₁.of_suffix (by rw [hrest]; exact List.suffix_cons ..)
    split at hread
    · cases hread
    rename_i hnesting
    simp only at hread
    split at hread
    · cases hread
    rename_i w c₃ hr₁
    obtain ⟨t, ht, htfits⟩ := h _ _ _ _ (by omega) hlexed₁' hr₁
    have hle₁ := ht.suffix.length_le
    split at hread
    · rename_i hcolon
      obtain ⟨colon, hrest₁, hcolon⟩ := Cursor.rest_of_at? hcolon
      have hcons₁ := congrArg List.length hrest₁
      rw [List.length_cons] at hcons₁
      have hlexed₃ : Lexed c₃.advance.rest :=
        (hlexed₁'.of_suffix ht.suffix).of_suffix (by rw [hrest₁]; exact List.suffix_cons ..)
      split at hread
      · cases hread
      rename_i z c₅ hr₂
      cases hread
      obtain ⟨f, hf, hffits⟩ := h _ _ _ _ (by omega) hlexed₃ hr₂
      rw [hrest] at hx
      rw [hrest₁] at ht
      refine ⟨.choice x t f, .choice hx hmark ht hcolon hf, ?_⟩
      have := hfits.parentheses
      have := hfits.nesting
      have := htfits.parentheses
      have := htfits.nesting
      have := hffits.parentheses
      have := hffits.nesting
      constructor <;> simp only [Expression.parentheses, Expression.nesting] at * <;> omega
    · cases hread
  · rename_i hmark
    cases hread
    exact ⟨x, .condition hx (Cursor.stop_of_at? hmark), hfits⟩

theorem sound_conditional (n : Nat) : Goal.conditional.Sound e.readConditional n := by
  induction n with
  | zero => exact fun m c v c' h => absurd h (Nat.not_lt_zero _)
  | succ n ih =>
    exact sound_conditional_succ ih (sound_operators (sound_unary (sound_primary ih)) 0 (by decide))

end Evaluator

/-! ## Whole conditions -/

/-- The tokens that count in a condition. -/
def conditionTokens (tokens : List Token) : List Token :=
  tokens.filter fun t => !t.isLayout && t.kind ≠ .endOfInput

/-- What reads a condition of some tokens. -/
def Setting.evaluator (s : Setting) (t : Token) (rest : List Token) : Evaluator :=
  { s with last := (t :: rest).getLast (List.cons_ne_nil t rest) }

open Evaluator in
theorem evaluate_of_conditionTokens {s : Setting} {tokens rest : List Token} {t : Token}
    (h : conditionTokens tokens = t :: rest) :
    evaluate s tokens =
      match (s.evaluator t rest).readConditional { nesting := s.nestingLimit } { rest := t :: rest } with
      | .error failure => ⟨.error failure.fault, failure.undefined.reverse⟩
      | .ok (value, c) =>
        match c.rest with
        | [] => ⟨.ok value, c.undefined.reverse⟩
        | u :: _ => ⟨.error ⟨.unexpected u.text, u.location⟩, c.undefined.reverse⟩ := by
  rw [conditionTokens] at h
  rw [evaluate]
  split
  · rename_i hnil
    rw [h] at hnil
    cases hnil
  · rename_i t' rest' hcons
    obtain ⟨rfl, rfl⟩ := List.cons.inj (hcons.symm.trans h)
    simp only [readConditional, Setting.evaluator]
    cases conditional _ _ _ with
    | error failure => rfl
    | ok o => rfl

theorem evaluate_of_nil {s : Setting} {tokens : List Token} (h : conditionTokens tokens = []) :
    evaluate s tokens = ⟨.error ⟨.noExpression, s.location⟩, []⟩ := by
  rw [conditionTokens] at h
  rw [evaluate]
  split
  · rfl
  · rename_i hcons
    rw [hcons] at h
    cases h

theorem Expression.Derives.ne_nil {k : Nat} {ts : List Token} {x : Expression}
    (h : Derives k ts x) : ts ≠ [] := by
  induction h with
  | tighter lt h ih => exact ih
  | choice => simp
  | binary => simp
  | unary => simp
  | leaf h =>
    obtain ⟨t, ts, rfl, -⟩ := h.exists_head
    simp
  | group => simp

/-- A single token is an expression only as a constant or a name. -/
theorem Expression.Derives.leaf_of_single {k : Nat} {t : Token} {x : Expression}
    (h : Derives k [t] x) : Leaf [t] x := by
  generalize hts : [t] = ts at h
  induction h with
  | tighter lt h ih => exact ih hts
  | choice hc =>
    have hlength := congrArg List.length hts
    simp only [List.length_append, List.length_cons, List.length_nil] at hlength
    omega
  | binary hl ht hr =>
    have hpos := List.length_pos_iff.mpr hl.ne_nil
    have hlength := congrArg List.length hts
    simp only [List.length_append, List.length_cons, List.length_nil] at hlength
    omega
  | unary ht h => exact absurd (List.cons.inj hts).2.symm h.ne_nil
  | leaf h =>
    subst hts
    exact h
  | group => exact absurd (congrArg List.length hts) (by simp)

/-- An expression that is not nested too deep evaluates to its meaning. -/
theorem evaluate_of_derives {s : Setting} {tokens : List Token} {x : Expression}
    (h : Expression.Derives 0 (conditionTokens tokens) x)
    (hparentheses : x.parentheses ≤ ConditionFault.parenthesisLimit)
    (hnesting : x.nesting ≤ s.nestingLimit) :
    evaluate s tokens = ⟨x.eval s.isDefined, x.undefined s.isDefined⟩ := by
  cases hts : conditionTokens tokens with
  | nil => exact absurd hts h.ne_nil
  | cons t rest =>
    rw [evaluate_of_conditionTokens hts, show s.isDefined = (s.evaluator t rest).isDefined from rfl]
    rw [hts, derives_iff_reads] at h
    have hagrees := h.evaluates (e := s.evaluator t rest) { nesting := s.nestingLimit } []
      (by simpa using hparentheses) hnesting
    simp only [Goal.Evaluates] at hagrees
    generalize (s.evaluator t rest).readConditional _ _ = o at hagrees ⊢
    cases hagrees with
    | ok _ heval => simp [heval]
    | error _ heval => simp [heval]
    | skipped dead => cases dead

/-- Only an expression has a value. -/
theorem derives_of_evaluate {s : Setting} {tokens : List Token} {v : Value} (hlexed : Lexed tokens)
    (h : (evaluate s tokens).result = .ok v) :
    ∃ x, Expression.Derives 0 (conditionTokens tokens) x ∧
      x.parentheses ≤ ConditionFault.parenthesisLimit ∧ x.nesting ≤ s.nestingLimit := by
  cases hts : conditionTokens tokens with
  | nil =>
    rw [evaluate_of_nil hts] at h
    cases h
  | cons t rest =>
    rw [evaluate_of_conditionTokens hts] at h
    split at h
    · cases h
    rename_i w c hread
    split at h
    · rename_i hrest
      have hlexed' : Lexed (t :: rest) := fun u hu => by
        rw [← hts] at hu
        exact hlexed u (List.mem_filter.mp hu).1
      obtain ⟨x, hx, hfits⟩ := Evaluator.sound_conditional _ _ _ _ _ (Nat.lt_succ_self _) hlexed' hread
      rw [hrest] at hx
      exact ⟨x, derives_iff_reads.mpr hx, hfits.parentheses, hfits.nesting⟩
    · cases h

/-! ## Conditions of one constant -/

namespace Evaluator

variable {e : Evaluator} {m : Mode} {c : Cursor}

theorem operator?_of_nil {level : Nat} (h : c.rest = []) : c.operator? level = none := by
  rw [Cursor.operator?, h]

theorem readOperators_of_lone (hunary : c.unary? = none)
    (hrest : ∀ v c', e.readPrimary m c = .ok (v, c') → c'.rest = []) {level : Nat}
    (hlevel : level ≤ BinaryOperator.levels) : e.readOperators m c level = e.readPrimary m c := by
  induction hlevel using Nat.decreasingInduction with
  | self => rw [readOperators_eq, if_neg (Nat.lt_irrefl _), readUnary_eq, hunary]
  | of_succ level hlt ih =>
    rw [readOperators_eq, if_pos hlt, ih]
    cases hread : e.readPrimary m c with
    | error failure => rfl
    | ok read =>
      obtain ⟨v, c'⟩ := read
      simp only
      rw [readMore_eq, operator?_of_nil (hrest v c' hread)]

/-- Without an operator before it or behind it, an operand is the whole condition. -/
theorem readConditional_of_lone (hunary : c.unary? = none)
    (hrest : ∀ v c', e.readPrimary m c = .ok (v, c') → c'.rest = []) :
    e.readConditional m c = e.readPrimary m c := by
  rw [readConditional_eq, readOperators_of_lone hunary hrest (Nat.zero_le _)]
  cases hread : e.readPrimary m c with
  | error failure => rfl
  | ok read =>
    obtain ⟨v, c'⟩ := read
    have hmark : c'.at? "?" = false := by rw [Cursor.at?, hrest v c' hread]; rfl
    simp only
    rw [hmark, if_neg Bool.false_ne_true]

end Evaluator

section
variable {s : Setting} {t : Token}

/-- A condition of one constant is converted, and blamed if it cannot be. -/
theorem evaluate_of_constant {converted : Except ConditionFault Value}
    (hkind : t.kind = .number ∧ converted = Constant.integer t.text ∨
      t.kind = .character ∧ converted = Constant.character t.text) :
    evaluate s [t] = ⟨converted.mapError fun cause => ⟨cause, t.location⟩, []⟩ := by
  have hcounts : conditionTokens [t] = [t] := by
    rcases hkind with ⟨hkind, -⟩ | ⟨hkind, -⟩ <;>
      simp [conditionTokens, Token.isLayout, hkind, Kind.isLayout]
  have hunary : ({ rest := [t] } : Cursor).unary? = none := by
    refine Cursor.unary?_eq_none fun u hu op => ?_
    cases hu
    rcases hkind with ⟨hkind, -⟩ | ⟨hkind, -⟩ <;> simp [Token.isPunctuator, hkind]
  have hprimary : ∀ m, (s.evaluator t []).readPrimary m { rest := [t] } =
      (converted.map fun value => (value, { rest := [] })).mapError fun cause =>
        ⟨⟨cause, t.location⟩, []⟩ := by
    intro m
    rw [Evaluator.readPrimary_eq (s.evaluator t []) m _ rfl]
    rcases hkind with ⟨hkind, rfl⟩ | ⟨hkind, rfl⟩
    · rw [hkind]
      cases Constant.integer t.text <;> rfl
    · rw [hkind]
      cases Constant.character t.text <;> rfl
  rw [evaluate_of_conditionTokens hcounts, Evaluator.readConditional_of_lone hunary, hprimary]
  · cases converted <;> rfl
  · intro v c' hread
    rw [hprimary] at hread
    cases converted with
    | error cause => cases hread
    | ok value =>
      cases hread
      rfl

theorem evaluate_number (s : Setting) (hkind : t.kind = .number) :
    evaluate s [t] = ⟨(Constant.integer t.text).mapError fun cause => ⟨cause, t.location⟩, []⟩ :=
  evaluate_of_constant (.inl ⟨hkind, rfl⟩)

theorem evaluate_character (s : Setting) (hkind : t.kind = .character) :
    evaluate s [t] = ⟨(Constant.character t.text).mapError fun cause => ⟨cause, t.location⟩, []⟩ :=
  evaluate_of_constant (.inr ⟨hkind, rfl⟩)

end

/-! ## The evaluation of conditions -/

/-- Conditions are evaluated by their grammar: the tokens form one expression at most, and their
value is that of the expression, if it has one and is not nested too deep. Whatever is no expression,
or one with too many parentheses open at once, is refused by an error of conditions, unless a number in it
is too long to be converted. -/
theorem evaluate_iff_derives (s : Setting) (tokens : List Token)
    (hcharacters : ∀ t ∈ tokens, t.kind = .character →
      ∃ source, .token .character t.text.toList ∈ lexemes source) :
    (∀ x y, Expression.Derives 0 (conditionTokens tokens) x →
      Expression.Derives 0 (conditionTokens tokens) y → x = y) ∧
    (∀ v, (evaluate s tokens).result = .ok v ↔
      ∃ x, Expression.Derives 0 (conditionTokens tokens) x ∧
        x.parentheses ≤ ConditionFault.parenthesisLimit ∧ x.nesting ≤ s.nestingLimit ∧
        x.eval s.isDefined = .ok v ∧ x.unsigned = v.unsigned) ∧
    ((¬ ∃ x, Expression.Derives 0 (conditionTokens tokens) x ∧
        x.parentheses ≤ ConditionFault.parenthesisLimit) →
      ∃ fault, (evaluate s tokens).result = .error fault ∧
        (.expression ∈ fault.cause.category.ancestry ∨
          ∃ t ∈ tokens, t.kind = .number ∧ ∃ count, LongDecimal (Constant.chomp t.text.toList) count ∧
            fault = ⟨.tooManyDigits count, t.location⟩)) := by
  have hlexed : Lexed tokens := fun t ht kind => by
    obtain ⟨source, hsource⟩ := hcharacters t ht kind
    exact exists_characterConstant_of_mem_lexemes hsource
  refine ⟨fun x y hx hy => hx.unique hy, fun v => ⟨fun h => ?_, ?_⟩, fun h => ?_⟩
  · obtain ⟨x, hx, hparentheses, hnesting⟩ := derives_of_evaluate hlexed h
    rw [evaluate_of_derives hx hparentheses hnesting] at h
    exact ⟨x, hx, hparentheses, hnesting, h, (Expression.unsigned_of_eval h).symm⟩
  · rintro ⟨x, hx, hparentheses, hnesting, heval, -⟩
    rw [evaluate_of_derives hx hparentheses hnesting]
    exact heval
  · cases hresult : (evaluate s tokens).result with
    | error fault => exact ⟨fault, rfl, (faults_evaluate hresult).expression_or_long⟩
    | ok v =>
      obtain ⟨x, hx, hparentheses, -⟩ := derives_of_evaluate hlexed hresult
      exact absurd ⟨x, hx, hparentheses⟩ h

/-- The condition `'a' - 98u` has the largest unsigned value. -/
theorem evaluate_character_sub :
    (evaluate {} [⟨.character, "'a'", default, ∅, false⟩, ⟨.punctuator, "-", default, ∅, false⟩,
      ⟨.number, "98u", default, ∅, false⟩]).result = .ok ⟨18446744073709551615, true⟩ := by
  refine ((evaluate_iff_derives {} _ ?_).2.1 _).mpr
    ⟨.binary .sub default (.constant ⟨97, false⟩) (.constant ⟨98, true⟩), ?_, by decide, by decide,
      by decide, rfl⟩
  · intro t ht kind
    have hmem : t.text = "'a'" := by
      simp only [List.mem_cons, List.not_mem_nil, or_false] at ht
      rcases ht with rfl | rfl | rfl <;> first | rfl | cases kind
    have hlexemes : lexemes "'a'".toList = [.token .character "'a'".toList] := by cbv
    exact ⟨"'a'".toList, by rw [hmem, hlexemes]; exact List.mem_singleton_self _⟩
  · have hlexemes : lexemes "'a'".toList = [.token .character "'a'".toList] := by cbv
    have hl : Constant.character "'a'" = .ok ⟨97, false⟩ := by cbv
    have hr : Constant.integer "98u" = .ok ⟨98, true⟩ := by cbv
    rw [Constant.character_eq_ok_iff (exists_characterConstant_of_mem_lexemes
      (by rw [hlexemes]; exact List.mem_singleton_self _))] at hl
    rw [Constant.integer_eq_ok_iff] at hr
    have left := Expression.Derives.leaf (.character (t := ⟨.character, "'a'", default, ∅, false⟩)
      rfl hl)
    have right := Expression.Derives.leaf (.number (t := ⟨.number, "98u", default, ∅, false⟩) rfl hr)
    have hsub := @Expression.Derives.binary .sub ⟨.punctuator, "-", default, ∅, false⟩ _ _ _ _
      (left.mono (by decide) (by decide)) rfl (right.mono (by decide) (by decide))
    exact hsub.mono (by decide) (by decide)

theorem Constant.integer_ones {n : Nat} (h : Text.digitLimit < n) :
    integer (String.ofList (List.replicate n '1')) = .error (.tooManyDigits n) := by
  have hlast : ¬ (List.replicate n '1').getLast? = some '\n' := by
    rw [List.getLast?_replicate]
    split <;> simp
  rw [integer_eq_tooManyDigits_iff, String.toList_ofList, chomp, if_neg hlast]
  exact .ones h

/-- A number of so many ones that it is not converted. -/
def longNumber : String := String.ofList (List.replicate 4301 '1')

theorem integer_longNumber : Constant.integer longNumber = .error (.tooManyDigits 4301) :=
  Constant.integer_ones (by decide)

/-- A number that is too long to be converted is no expression, and the error that it gives is none of
conditions. -/
theorem evaluate_longNumber :
    let t : Token := ⟨.number, longNumber, default, ∅, false⟩
    (¬ ∃ x, Expression.Derives 0 (conditionTokens [t]) x) ∧
      ∃ fault, (evaluate {} [t]).result = .error fault ∧
        .expression ∉ fault.cause.category.ancestry := by
  intro t
  have hvalue : (evaluate {} [t]).result = .error ⟨.tooManyDigits 4301, t.location⟩ := by
    rw [evaluate_number {} rfl, integer_longNumber]
    rfl
  refine ⟨?_, _, hvalue, by decide⟩
  rintro ⟨x, hx⟩
  have hleaf : Expression.Leaf [t] x := Expression.Derives.leaf_of_single hx
  cases hleaf with
  | number kind h => cases (Constant.integer_eq_ok_iff.mpr h).symm.trans integer_longNumber
  | character kind h => cases kind
  | name kind ne => cases kind

end CPreprocessor
