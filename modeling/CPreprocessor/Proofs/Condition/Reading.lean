import CPreprocessor.Proofs.Condition.Grammar

/-!
# Reading by recursive descent

`Reads` is the descent as a relation: each rule looks at the next token only, so what is read is
determined (`Reads.unique`). It reads exactly what the grammar derives (`derives_iff_reads`); hence
no tokens form two expressions (`Expression.Derives.unique`).
-/

namespace CPreprocessor

namespace BinaryOperator

theorem level_lt (op : BinaryOperator) : op.level < levels := by cases op <;> decide

theorem ofText?_eq_some_iff {text : String} {op : BinaryOperator} :
    ofText? text = some op ↔ text = op.text := by
  constructor
  · intro h
    unfold ofText? at h
    have := List.find?_some h
    simpa [eq_comm] using this
  · rintro rfl
    cases op <;> rfl

theorem text_injective : Function.Injective text := fun op₁ op₂ h => by
  have h₁ := ofText?_eq_some_iff.mpr (rfl : op₁.text = op₁.text)
  rw [h, ofText?_eq_some_iff.mpr rfl] at h₁
  exact (Option.some.inj h₁).symm

end BinaryOperator

namespace UnaryOperator

theorem ofText?_eq_some_iff {text : String} {op : UnaryOperator} :
    ofText? text = some op ↔ text = op.text := by
  constructor
  · intro h
    unfold ofText? at h
    repeat' split at h
    all_goals cases h
    all_goals assumption
  · rintro rfl
    cases op <;> rfl

theorem text_injective : Function.Injective text := fun op₁ op₂ h => by
  have h₁ := ofText?_eq_some_iff.mpr (rfl : op₁.text = op₁.text)
  rw [h, ofText?_eq_some_iff.mpr rfl] at h₁
  exact (Option.some.inj h₁).symm

end UnaryOperator

/-! ## The descent -/

/-- What is to be read: a whole expression of some level, or what follows a left operand. -/
inductive Goal
  | conditional
  | operators (level : Nat)
  | more (level : Nat) (left : Expression)
  | unary
  | primary

open Expression (Derives unaryLevel primaryLevel)

/-- `Reads g ts x rest`: the expression `x` is read at the start of `ts`, and `rest` follows it. -/
inductive Reads : Goal → List Token → Expression → List Token → Prop
  | condition {ts rest : List Token} {x : Expression} (h : Reads (.operators 0) ts x rest)
    (stop : ∀ t ∈ rest.head?, t.isPunctuator "?" = false) : Reads .conditional ts x rest
  | choice {ts ts₁ ts₂ rest : List Token} {mark colon : Token} {c t f : Expression}
    (hc : Reads (.operators 0) ts c (mark :: ts₁)) (hmark : mark.isPunctuator "?" = true)
    (ht : Reads .conditional ts₁ t (colon :: ts₂)) (hcolon : colon.isPunctuator ":" = true)
    (hf : Reads .conditional ts₂ f rest) : Reads .conditional ts (.choice c t f) rest
  | chain {n : Nat} {ts ts₁ rest : List Token} {l x : Expression} (lt : n < BinaryOperator.levels)
    (hl : Reads (.operators (n + 1)) ts l ts₁) (h : Reads (.more n l) ts₁ x rest) :
    Reads (.operators n) ts x rest
  | tightest {ts rest : List Token} {x : Expression} (h : Reads .unary ts x rest) :
    Reads (.operators BinaryOperator.levels) ts x rest
  | stop {n : Nat} {ts : List Token} {l : Expression}
    (h : ∀ t ∈ ts.head?, ∀ op : BinaryOperator, t.isPunctuator op.text = true → op.level ≠ n) :
    Reads (.more n l) ts l ts
  | step {n : Nat} {op : BinaryOperator} {t : Token} {ts ts₁ rest : List Token}
    {l r x : Expression} (ht : t.isPunctuator op.text = true) (level : op.level = n)
    (hr : Reads (.operators (n + 1)) ts r ts₁)
    (h : Reads (.more n (.binary op t.location l r)) ts₁ x rest) :
    Reads (.more n l) (t :: ts) x rest
  | unary {op : UnaryOperator} {t : Token} {ts rest : List Token} {x : Expression}
    (ht : t.isPunctuator op.text = true) (h : Reads .unary ts x rest) :
    Reads .unary (t :: ts) (.unary op x) rest
  | operand {ts rest : List Token} {x : Expression} (h : Reads .primary ts x rest)
    (stop : ∀ t ∈ ts.head?, ∀ op : UnaryOperator, t.isPunctuator op.text = false) :
    Reads .unary ts x rest
  | leaf {all ts rest : List Token} {x : Expression} (h : Expression.Leaf ts x)
    (split : all = ts ++ rest) : Reads .primary all x rest
  | group {opened closed : Token} {ts rest : List Token} {x : Expression}
    (hopened : opened.isPunctuator "(" = true) (h : Reads .conditional ts x (closed :: rest))
    (hclosed : closed.isPunctuator ")" = true) :
    Reads .primary (opened :: ts) (.group x) rest

/-! ## What is read is determined -/

theorem CharacterConstant.value_eq {text : List Char} {v w : Value} (hv : CharacterConstant text v)
    (hw : CharacterConstant text w) : v = w := by
  have h : ∀ {u}, CharacterConstant text u → Constant.character (String.ofList text) = .ok u :=
    fun h => Constant.character_of_characterConstant (by rwa [String.toList_ofList])
  exact Except.ok.inj ((h hv).symm.trans (h hw))

namespace Expression.Leaf

/-- A leaf begins with a token that is no punctuator. -/
theorem exists_head {ts : List Token} {x : Expression} (h : Leaf ts x) :
    ∃ t ts', ts = t :: ts' ∧ t.kind ≠ .punctuator := by
  cases h with
  | @number t _ kind => exact ⟨t, [], rfl, by simp [kind]⟩
  | @character t _ kind => exact ⟨t, [], rfl, by simp [kind]⟩
  | @name t kind => exact ⟨t, [], rfl, by simp [kind]⟩
  | @defined t _ kind => exact ⟨t, _, rfl, by simp [kind]⟩
  | @definedIn t _ _ _ kind => exact ⟨t, _, rfl, by simp [kind]⟩

theorem unique {ts₁ ts₂ rest₁ rest₂ : List Token} {x₁ x₂ : Expression} (h₁ : Leaf ts₁ x₁)
    (h₂ : Leaf ts₂ x₂) (heq : ts₁ ++ rest₁ = ts₂ ++ rest₂) : x₁ = x₂ ∧ rest₁ = rest₂ := by
  cases h₁ with
  | number kind h =>
    cases h₂ with
    | number _ h' =>
      cases heq
      have := Constant.integer_eq_ok_iff.mpr h
      rw [Constant.integer_eq_ok_iff.mpr h'] at this
      cases this
      exact ⟨rfl, rfl⟩
    | _ => (cases heq; simp_all)
  | character kind h =>
    cases h₂ with
    | character _ h' =>
      cases heq
      cases h.value_eq h'
      exact ⟨rfl, rfl⟩
    | _ => (cases heq; simp_all)
  | name kind ne => cases h₂ <;> cases heq <;> simp_all
  | defined hkeyword htext kind => cases h₂ <;> cases heq <;> simp_all [Token.isPunctuator]
  | definedIn hkeyword htext hopened kind hclosed =>
    cases h₂ <;> cases heq <;> simp_all [Token.isPunctuator]

end Expression.Leaf

namespace Reads

theorem unique {g : Goal} {ts rest₁ rest₂ : List Token} {x₁ x₂ : Expression}
    (h₁ : Reads g ts x₁ rest₁) (h₂ : Reads g ts x₂ rest₂) : x₁ = x₂ ∧ rest₁ = rest₂ := by
  induction h₁ generalizing x₂ rest₂ with
  | condition h stop ih =>
    cases h₂ with
    | condition h' _ => exact ih h'
    | choice hc hmark =>
      obtain ⟨-, rfl⟩ := ih hc
      cases (stop _ rfl).symm.trans hmark
  | choice hc hmark ht hcolon hf ihc iht ihf =>
    cases h₂ with
    | condition h' stop =>
      obtain ⟨-, rfl⟩ := ihc h'
      cases (stop _ rfl).symm.trans hmark
    | choice hc' _ ht' _ hf' =>
      obtain ⟨rfl, heq⟩ := ihc hc'
      cases heq
      obtain ⟨rfl, heq⟩ := iht ht'
      cases heq
      obtain ⟨rfl, rfl⟩ := ihf hf'
      exact ⟨rfl, rfl⟩
  | chain lt hl h ihl ih =>
    cases h₂ with
    | chain _ hl' h' =>
      obtain ⟨rfl, rfl⟩ := ihl hl'
      exact ih h'
    | tightest => exact absurd lt (Nat.lt_irrefl _)
  | tightest h ih =>
    cases h₂ with
    | chain lt => exact absurd lt (Nat.lt_irrefl _)
    | tightest h' => exact ih h'
  | stop h =>
    cases h₂ with
    | stop => exact ⟨rfl, rfl⟩
    | step ht level => exact absurd level (h _ rfl _ ht)
  | step ht level hr h ihr ih =>
    cases h₂ with
    | stop h' => exact absurd level (h' _ rfl _ ht)
    | step ht' _ hr' h' =>
      obtain ⟨rfl, rfl⟩ := ihr hr'
      cases BinaryOperator.text_injective (Token.text_eq_of_isPunctuator ht ht')
      exact ih h'
  | unary ht h ih =>
    cases h₂ with
    | unary ht' h' =>
      obtain ⟨rfl, rfl⟩ := ih h'
      cases UnaryOperator.text_injective (Token.text_eq_of_isPunctuator ht ht')
      exact ⟨rfl, rfl⟩
    | operand _ stop => cases (stop _ rfl _).symm.trans ht
  | operand h stop ih =>
    cases h₂ with
    | unary ht' => cases (stop _ rfl _).symm.trans ht'
    | operand h' => exact ih h'
  | leaf h split =>
    cases h₂ with
    | leaf h' split' => exact h.unique h' (split.symm.trans split')
    | group hopened =>
      obtain ⟨t, ts', rfl, hkind⟩ := h.exists_head
      cases split
      exact absurd (Token.isPunctuator_iff.mp hopened).1 hkind
  | group hopened h hclosed ih =>
    cases h₂ with
    | leaf h' split =>
      obtain ⟨t, ts', rfl, hkind⟩ := h'.exists_head
      cases split
      exact absurd (Token.isPunctuator_iff.mp hopened).1 hkind
    | group _ h' =>
      obtain ⟨rfl, heq⟩ := ih h'
      cases heq
      exact ⟨rfl, rfl⟩

end Reads

/-! ## What is read is derived -/

/-- What the tokens read for a goal derive. -/
def Goal.Derived : Goal → List Token → Expression → Prop
  | conditional, ts, x => Derives 0 ts x
  | operators n, ts, x => Derives (n + 1) ts x
  | more n l, ts, x => ∀ before, Derives (n + 1) before l → Derives (n + 1) (before ++ ts) x
  | unary, ts, x => Derives unaryLevel ts x
  | primary, ts, x => Derives primaryLevel ts x

theorem Reads.derived {g : Goal} {ts rest : List Token} {x : Expression} (h : Reads g ts x rest) :
    ∃ read, ts = read ++ rest ∧ g.Derived read x := by
  induction h with
  | condition h stop ih =>
    obtain ⟨read, rfl, hread⟩ := ih
    exact ⟨read, rfl, .tighter (by decide) hread⟩
  | @choice ts ts₁ ts₂ rest mark colon c t f hc hmark ht hcolon hf ihc iht ihf =>
    obtain ⟨cs, rfl, hcs⟩ := ihc
    obtain ⟨us, rfl, hus⟩ := iht
    obtain ⟨fs, rfl, hfs⟩ := ihf
    exact ⟨cs ++ mark :: (us ++ colon :: fs), by simp, .choice hcs hmark hus hcolon hfs⟩
  | chain lt hl h ihl ih =>
    obtain ⟨ls, rfl, hls⟩ := ihl
    obtain ⟨read, rfl, hread⟩ := ih
    refine ⟨ls ++ read, by simp, hread ls (.tighter ?_ hls)⟩
    rw [primaryLevel]
    omega
  | tightest h ih => exact ih
  | stop h => exact ⟨[], rfl, fun before hbefore => by simpa using hbefore⟩
  | @step n op t ts ts₁ rest l r x ht level hr h ihr ih =>
    obtain ⟨rs, rfl, hrs⟩ := ihr
    obtain ⟨read, rfl, hread⟩ := ih
    subst level
    refine ⟨t :: (rs ++ read), by simp, fun before hbefore => ?_⟩
    simpa using hread _ (.binary hbefore ht hrs)
  | @unary op t ts rest x ht h ih =>
    obtain ⟨read, rfl, hread⟩ := ih
    exact ⟨t :: read, rfl, .unary ht hread⟩
  | operand h stop ih =>
    obtain ⟨read, rfl, hread⟩ := ih
    exact ⟨read, rfl, .tighter (by decide) hread⟩
  | leaf h split => exact ⟨_, split, .leaf h⟩
  | @group opened closed ts rest x hopened h hclosed ih =>
    obtain ⟨read, rfl, hread⟩ := ih
    exact ⟨opened :: (read ++ [closed]), by simp, .group hopened hread hclosed⟩

/-! ## What is derived is read -/

/-- No binary operator follows of level `k` or tighter. -/
def Follows (k : Nat) (rest : List Token) : Prop :=
  ∀ t ∈ rest.head?, ∀ op : BinaryOperator, t.isPunctuator op.text = true → op.level < k

theorem Follows.succ {k : Nat} {rest : List Token} (h : Follows k rest) : Follows (k + 1) rest :=
  fun t ht op hop => Nat.lt_succ_of_lt (h t ht op hop)

theorem Follows.of_isPunctuator {k : Nat} {t : Token} {rest : List Token} {text : String}
    (ht : t.isPunctuator text = true)
    (h : ∀ op : BinaryOperator, op.text = text → op.level < k) : Follows k (t :: rest) := by
  intro t' ht' op hop
  cases ht'
  exact h op (Token.text_eq_of_isPunctuator hop ht)

theorem stops_of_isPunctuator {t : Token} {rest : List Token} {text : String}
    (ht : t.isPunctuator text = true) (ne : text ≠ "?") :
    ∀ t' ∈ (t :: rest).head?, t'.isPunctuator "?" = false := by
  intro t' ht'
  cases ht'
  rw [Bool.eq_false_iff]
  exact fun h => ne (Token.text_eq_of_isPunctuator ht h)

theorem Reads.not_unary_of_primary {ts rest : List Token} {x : Expression}
    (h : Reads .primary ts x rest) :
    ∀ t ∈ ts.head?, ∀ op : UnaryOperator, t.isPunctuator op.text = false := by
  intro t ht op
  rw [Bool.eq_false_iff]
  intro hop
  cases h with
  | leaf h split =>
    obtain ⟨t', ts', rfl, hkind⟩ := h.exists_head
    cases split
    cases ht
    exact hkind (Token.isPunctuator_iff.mp hop).1
  | group hopened =>
    cases ht
    have := Token.text_eq_of_isPunctuator hop hopened
    revert this
    cases op <;> decide

/-- How an expression of a level is read before what may follow it. Binary operators that come after
it are read on with it as their left operand. -/
structure ReadsAt (k : Nat) (ts : List Token) (x : Expression) : Prop where
  conditional : k = 0 → ∀ rest, Follows 0 rest →
    (∀ t ∈ rest.head?, t.isPunctuator "?" = false) → Reads .conditional (ts ++ rest) x rest
  operators : ∀ n < BinaryOperator.levels, k = n + 1 → ∀ after, Follows k after →
    ∀ y rest, Reads (.more n x) after y rest → Reads (.operators n) (ts ++ after) y rest
  unary : k = unaryLevel → ∀ rest, Reads .unary (ts ++ rest) x rest
  primary : k = primaryLevel → ∀ rest, Reads .primary (ts ++ rest) x rest

/-- An expression of binary operators is read to its end if none of them follows. -/
theorem ReadsAt.read_operators {n : Nat} {ts rest : List Token} {x : Expression}
    (h : ReadsAt (n + 1) ts x) (le : n ≤ BinaryOperator.levels) (hrest : Follows n rest) :
    Reads (.operators n) (ts ++ rest) x rest := by
  rcases Nat.lt_or_eq_of_le le with lt | rfl
  · exact h.operators n lt rfl rest hrest.succ x rest
      (.stop fun t ht op hop => Nat.ne_of_lt (hrest t ht op hop))
  · exact .tightest (h.unary rfl rest)

theorem readsAt_of_unary {ts : List Token} {x : Expression}
    (h : ∀ rest, Reads .unary (ts ++ rest) x rest) : ReadsAt unaryLevel ts x where
  conditional h := by cases h
  operators n lt h := by cases h; exact absurd lt (Nat.lt_irrefl _)
  unary _ := h
  primary h := by cases h

theorem readsAt_of_primary {ts : List Token} {x : Expression}
    (h : ∀ rest, Reads .primary (ts ++ rest) x rest) : ReadsAt primaryLevel ts x where
  conditional h := by cases h
  operators n lt h := by cases h; exact absurd lt (by decide)
  unary h := by cases h
  primary _ := h

theorem readsAt_of_derives {k : Nat} {ts : List Token} {x : Expression} (h : Derives k ts x) :
    ReadsAt k ts x := by
  induction h with
  | @tighter k ts x lt h ih =>
    refine ⟨?_, ?_, ?_, ?_⟩
    · rintro rfl rest hrest hstop
      exact .condition (ih.read_operators (by decide) hrest) hstop
    · rintro n hn rfl after hafter y rest hy
      exact .chain hn (ih.read_operators hn hafter) hy
    · rintro rfl rest
      have h := ih.primary rfl rest
      exact .operand h h.not_unary_of_primary
    · rintro rfl
      exact absurd lt (Nat.lt_irrefl _)
  | @choice cs ts fs mark colon c t f hc hmark ht hcolon hf ihc iht ihf =>
    refine ⟨fun _ rest hrest hstop => ?_, ?_, ?_, ?_⟩
    · have hmark' : Follows 0 (mark :: (ts ++ colon :: (fs ++ rest))) :=
        .of_isPunctuator hmark fun op => by cases op <;> decide
      have hcolon' : Follows 0 (colon :: (fs ++ rest)) :=
        .of_isPunctuator hcolon fun op => by cases op <;> decide
      have hread := ihc.read_operators (Nat.zero_le _) hmark'
      simpa using hread.choice hmark
        (iht.conditional rfl _ hcolon' (stops_of_isPunctuator hcolon (by decide))) hcolon
        (ihf.conditional rfl rest hrest hstop)
    · intro n _ h
      cases h
    · intro h
      cases h
    · intro h
      cases h
  | @binary op t ls rs l r hl ht hr ihl ihr =>
    have lt := op.level_lt
    refine ⟨?_, ?_, ?_, ?_⟩
    · intro h
      cases h
    · intro n hn heq after hafter y rest hy
      obtain rfl : op.level = n := by omega
      have hop : Follows (op.level + 1) (t :: (rs ++ after)) :=
        .of_isPunctuator ht fun op' h => by rw [BinaryOperator.text_injective h]; omega
      have hread := ihr.read_operators lt hafter
      simpa using ihl.operators op.level hn rfl _ hop y rest (.step ht rfl hread hy)
    · intro h
      rw [unaryLevel] at h
      omega
    · intro h
      rw [primaryLevel] at h
      omega
  | unary ht h ih => exact readsAt_of_unary fun rest => .unary ht (ih.unary rfl rest)
  | leaf h => exact readsAt_of_primary fun rest => .leaf h rfl
  | @group opened closed ts x hopened h hclosed ih =>
    refine readsAt_of_primary fun rest => ?_
    have hfollows : Follows 0 (closed :: rest) :=
      .of_isPunctuator hclosed fun op => by cases op <;> decide
    have hread := ih.conditional rfl _ hfollows (stops_of_isPunctuator hclosed (by decide))
    simpa using Reads.group hopened hread hclosed

/-- The grammar derives what the descent reads to the end. -/
theorem derives_iff_reads {ts : List Token} {x : Expression} :
    Derives 0 ts x ↔ Reads .conditional ts x [] := by
  constructor
  · intro h
    have hread := (readsAt_of_derives h).conditional rfl [] (by simp [Follows]) (by simp)
    rwa [List.append_nil] at hread
  · intro h
    obtain ⟨read, rfl, hread⟩ := h.derived
    rwa [List.append_nil]

/-- No tokens form two expressions. -/
theorem Expression.Derives.unique {ts : List Token} {x y : Expression} (hx : Derives 0 ts x)
    (hy : Derives 0 ts y) : x = y :=
  ((derives_iff_reads.mp hx).unique (derives_iff_reads.mp hy)).1

end CPreprocessor
