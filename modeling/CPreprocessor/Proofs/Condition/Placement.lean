import CPreprocessor.Proofs.Condition.Acceptance
import CPreprocessor.Proofs.Expansion.ActiveSet
import CPreprocessor.Proofs.Expansion.Relocation

/-!
# Expressions and the tokens they are made of

Tokens that are moved form the same expression at their new places (`Expression.Derives.relocate`), and
tokens that hide other names form an expression with the same value (`Expression.Derives.recast`,
`Expression.eval_bare`). Nothing in an expression is left out of a condition or of an expansion
(`Expression.Derives.written`). Tokens whose expression is nested too deep have no value
(`not_evaluate_of_derives`).
-/

namespace CPreprocessor

theorem conditionTokens_append (ts us : List Token) :
    conditionTokens (ts ++ us) = conditionTokens ts ++ conditionTokens us :=
  List.filter_append ..

theorem mem_conditionTokens {ts : List Token} {t : Token} (ht : t ∈ ts) (hlayout : t.isLayout = false)
    (hkind : t.kind ≠ .endOfInput) : t ∈ conditionTokens ts :=
  List.mem_filter.mpr ⟨ht, by simp [hlayout, hkind]⟩

theorem conditionTokens_mark {text : String} {t : Token} (ht : t.isPunctuator text = true)
    (rest : List Token) : conditionTokens (t :: rest) = t :: conditionTokens rest := by
  obtain ⟨hkind, -⟩ := Token.isPunctuator_iff.mp ht
  refine List.filter_cons_of_pos ?_
  rw [Token.isLayout, hkind]
  rfl

theorem conditionTokens_relocate (f : Location → Location) (ts : List Token) :
    conditionTokens (ts.map (.relocate f)) = (conditionTokens ts).map (.relocate f) :=
  List.filter_map ..

theorem conditionTokens_of_bare {ts us : List Token} (h : us.map Token.bare = ts.map Token.bare) :
    (conditionTokens us).map Token.bare = (conditionTokens ts).map Token.bare := by
  have hfilter : ∀ ts : List Token, (conditionTokens ts).map Token.bare =
      (ts.map Token.bare).filter fun t => !t.isLayout && t.kind ≠ .endOfInput := by
    intro ts
    rw [List.filter_map]
    rfl
  rw [hfilter, h, hfilter]

namespace Token

variable {t u : Token}

theorem kind_of_bare {kind : Kind} (h : u.bare = t.bare) (hkind : t.kind = kind) : u.kind = kind :=
  (congrArg Token.kind h :).trans hkind

theorem text_of_bare (h : u.bare = t.bare) : u.text = t.text := (congrArg text h :)

theorem location_of_bare (h : u.bare = t.bare) : u.location = t.location := (congrArg location h :)

theorem isPunctuator_of_bare {text : String} (h : u.bare = t.bare)
    (hpunctuator : t.isPunctuator text = true) : u.isPunctuator text = true := by
  obtain ⟨hkind, htext⟩ := isPunctuator_iff.mp hpunctuator
  exact isPunctuator_iff.mpr ⟨kind_of_bare h hkind, (text_of_bare h).trans htext⟩

end Token

namespace Expression

variable {k : Nat} {ts us : List Token} {t : Token} {x y : Expression}

/-! ## Expressions at other places -/

/-- The expression with its tokens moved. -/
def relocate (f : Location → Location) : Expression → Expression
  | constant v => constant v
  | name t => name (t.relocate f)
  | defined macroName => defined macroName
  | unary op x => unary op (x.relocate f)
  | binary op place l r => binary op (f place) (l.relocate f) (r.relocate f)
  | choice c whenTrue whenFalse =>
    choice (c.relocate f) (whenTrue.relocate f) (whenFalse.relocate f)
  | group x => group (x.relocate f)

theorem Leaf.relocate (h : Leaf ts x) (f : Location → Location) :
    Leaf (ts.map (.relocate f)) (x.relocate f) := by
  cases h with
  | number kind h => exact .number kind h
  | character kind h => exact .character kind h
  | name kind ne => exact .name kind ne
  | defined hkeyword htext kind => exact .defined hkeyword htext kind
  | definedIn hkeyword htext hopened kind hclosed =>
    exact .definedIn hkeyword htext hopened kind hclosed

/-- Tokens that are moved form the expression at their new places. -/
theorem Derives.relocate (h : Derives k ts x) (f : Location → Location) :
    Derives k (ts.map (.relocate f)) (x.relocate f) := by
  induction h with
  | tighter lt h ih => exact .tighter lt ih
  | choice hc hmark ht hcolon hf ihc iht ihf =>
    rw [List.map_append, List.map_cons, List.map_append, List.map_cons]
    exact .choice ihc hmark iht hcolon ihf
  | @binary op t ls rs l r hl ht hr ihl ihr =>
    rw [List.map_append, List.map_cons]
    exact .binary (t := t.relocate f) ihl ht ihr
  | unary ht h ih => exact .unary ht ih
  | leaf h => exact .leaf (h.relocate f)
  | group hopened h hclosed ih =>
    rw [List.map_cons, List.map_append, List.map_singleton]
    exact .group hopened ih hclosed

/-! ## Expressions of tokens that hide other names -/

/-- The expression without the names that its tokens hide. -/
def bare : Expression → Expression
  | constant v => constant v
  | name t => name t.bare
  | defined macroName => defined macroName
  | unary op x => unary op x.bare
  | binary op place l r => binary op place l.bare r.bare
  | choice c whenTrue whenFalse => choice c.bare whenTrue.bare whenFalse.bare
  | group x => group x.bare

@[simp] theorem bare_binary (op : BinaryOperator) (place : Location) (l r : Expression) :
    (binary op place l r).bare = binary op place l.bare r.bare := rfl

@[simp] theorem bare_choice (c whenTrue whenFalse : Expression) :
    (choice c whenTrue whenFalse).bare = choice c.bare whenTrue.bare whenFalse.bare := rfl

theorem parentheses_bare (x : Expression) : x.bare.parentheses = x.parentheses := by
  induction x with
  | constant | name | defined => rfl
  | unary op x ih => exact ih
  | binary op place l r ihl ihr => exact congrArg₂ max ihl ihr
  | choice c t f ihc iht ihf => exact congrArg₂ max ihc (congrArg₂ max iht ihf)
  | group x ih => exact congrArg (· + 1) ih

theorem nesting_bare (x : Expression) : x.bare.nesting = x.nesting := by
  induction x with
  | constant | name | defined => rfl
  | unary op x ih => exact congrArg (· + 1) ih
  | binary op place l r ihl ihr => exact congrArg₂ max ihl ihr
  | choice c t f ihc iht ihf =>
    exact congrArg₂ max ihc (congrArg (· + 1) (congrArg₂ max iht ihf))
  | group x ih => exact ih

theorem unsigned_bare (x : Expression) : x.bare.unsigned = x.unsigned := by
  induction x with
  | constant | name | defined => rfl
  | unary op x ih =>
    cases op with
    | not => rfl
    | plus | minus | complement => exact ih
  | binary op place l r ihl ihr =>
    cases op with
    | or | and | eq | ne | lt | le | gt | ge => rfl
    | shiftLeft | shiftRight => exact ihl
    | bitOr | bitXor | bitAnd | add | sub | mul | div | mod => exact congrArg₂ or ihl ihr
  | choice c t f ihc iht ihf => exact congrArg₂ or iht ihf
  | group x ih => exact ih

theorem eval_bare (isDefined : String → Bool) (x : Expression) :
    x.bare.eval isDefined = x.eval isDefined := by
  induction x with
  | constant | name | defined => rfl
  | unary op x ih => exact congrArg (Except.map op.apply) ih
  | binary op place l r ihl ihr => rw [bare_binary, eval, ihl, ihr, eval]
  | choice c t f ihc iht ihf =>
    rw [bare_choice, eval, ihc, iht, ihf, unsigned_bare, unsigned_bare, eval]
  | group x ih => exact ih

theorem Leaf.recast (h : Leaf ts x) (hus : us.map Token.bare = ts.map Token.bare) :
    ∃ y, Leaf us y ∧ y.bare = x.bare := by
  cases h with
  | number kind h =>
    obtain ⟨u, rfl, hu⟩ := List.map_eq_singleton_iff.mp hus
    exact ⟨_, .number (Token.kind_of_bare hu kind) (Token.text_of_bare hu ▸ h), rfl⟩
  | character kind h =>
    obtain ⟨u, rfl, hu⟩ := List.map_eq_singleton_iff.mp hus
    exact ⟨_, .character (Token.kind_of_bare hu kind) (Token.text_of_bare hu ▸ h), rfl⟩
  | name kind ne =>
    obtain ⟨u, rfl, hu⟩ := List.map_eq_singleton_iff.mp hus
    exact ⟨_, .name (Token.kind_of_bare hu kind) (Token.text_of_bare hu ▸ ne),
      congrArg Expression.name hu⟩
  | defined hkeyword htext kind =>
    obtain ⟨word, us, rfl, hword, hus⟩ := List.map_eq_cons_iff.mp hus
    obtain ⟨u, rfl, hu⟩ := List.map_eq_singleton_iff.mp hus
    exact ⟨_, .defined (Token.kind_of_bare hword hkeyword) ((Token.text_of_bare hword).trans htext)
      (Token.kind_of_bare hu kind), congrArg Expression.defined (Token.text_of_bare hu)⟩
  | definedIn hkeyword htext hopened kind hclosed =>
    obtain ⟨word, us, rfl, hword, hus⟩ := List.map_eq_cons_iff.mp hus
    obtain ⟨opening, us, rfl, hopening, hus⟩ := List.map_eq_cons_iff.mp hus
    obtain ⟨u, us, rfl, hu, hus⟩ := List.map_eq_cons_iff.mp hus
    obtain ⟨closing, rfl, hclosing⟩ := List.map_eq_singleton_iff.mp hus
    exact ⟨_, .definedIn (Token.kind_of_bare hword hkeyword) ((Token.text_of_bare hword).trans htext)
      (Token.isPunctuator_of_bare hopening hopened) (Token.kind_of_bare hu kind)
      (Token.isPunctuator_of_bare hclosing hclosed),
      congrArg Expression.defined (Token.text_of_bare hu)⟩

/-- Tokens that differ in what they hide form expressions that differ in what their tokens hide. -/
theorem Derives.recast (h : Derives k ts x) (hus : us.map Token.bare = ts.map Token.bare) :
    ∃ y, Derives k us y ∧ y.bare = x.bare := by
  induction h generalizing us with
  | tighter lt h ih =>
    obtain ⟨y, hy, hbare⟩ := ih hus
    exact ⟨y, .tighter lt hy, hbare⟩
  | choice hc hmark ht hcolon hf ihc iht ihf =>
    rw [List.map_append, List.map_cons, List.map_append, List.map_cons] at hus
    obtain ⟨cs, us, rfl, hcs, hus⟩ := List.map_eq_append_iff.mp hus
    obtain ⟨mark, us, rfl, hmark', hus⟩ := List.map_eq_cons_iff.mp hus
    obtain ⟨ts, us, rfl, hts, hus⟩ := List.map_eq_append_iff.mp hus
    obtain ⟨colon, fs, rfl, hcolon', hfs⟩ := List.map_eq_cons_iff.mp hus
    obtain ⟨c, hc, hcbare⟩ := ihc hcs
    obtain ⟨t, ht, htbare⟩ := iht hts
    obtain ⟨f, hf, hfbare⟩ := ihf hfs
    exact ⟨_, .choice hc (Token.isPunctuator_of_bare hmark' hmark) ht
      (Token.isPunctuator_of_bare hcolon' hcolon) hf,
      by rw [bare_choice, bare_choice, hcbare, htbare, hfbare]⟩
  | binary hl ht hr ihl ihr =>
    rw [List.map_append, List.map_cons] at hus
    obtain ⟨ls, us, rfl, hls, hus⟩ := List.map_eq_append_iff.mp hus
    obtain ⟨u, rs, rfl, hu, hrs⟩ := List.map_eq_cons_iff.mp hus
    obtain ⟨l, hl, hlbare⟩ := ihl hls
    obtain ⟨r, hr, hrbare⟩ := ihr hrs
    exact ⟨_, .binary hl (Token.isPunctuator_of_bare hu ht) hr,
      by rw [bare_binary, bare_binary, hlbare, hrbare, Token.location_of_bare hu]⟩
  | @unary op t ts x ht h ih =>
    obtain ⟨u, us, rfl, hu, hus⟩ := List.map_eq_cons_iff.mp hus
    obtain ⟨y, hy, hbare⟩ := ih hus
    exact ⟨_, .unary (Token.isPunctuator_of_bare hu ht) hy, congrArg (Expression.unary op) hbare⟩
  | leaf h =>
    obtain ⟨y, hy, hbare⟩ := h.recast hus
    exact ⟨y, .leaf hy, hbare⟩
  | group hopened h hclosed ih =>
    rw [List.map_cons, List.map_append, List.map_singleton] at hus
    obtain ⟨opening, us, rfl, hopening, hus⟩ := List.map_eq_cons_iff.mp hus
    obtain ⟨ts, us, rfl, hts, hus⟩ := List.map_eq_append_iff.mp hus
    obtain ⟨closing, rfl, hclosing⟩ := List.map_eq_singleton_iff.mp hus
    obtain ⟨y, hy, hbare⟩ := ih hts
    exact ⟨_, .group (Token.isPunctuator_of_bare hopening hopened) hy
      (Token.isPunctuator_of_bare hclosing hclosed), congrArg Expression.group hbare⟩

/-! ## The tokens of an expression -/

/-- What every token of an expression is: one that counts, neither `##` nor the mark of an empty
argument, and a constant if it is a character literal. -/
structure Written (t : Token) : Prop where
  counted : (!t.isLayout && decide (t.kind ≠ .endOfInput)) = true
  pasting : t.isPunctuator "##" = false
  placemarker : t.kind ≠ .placemarker
  character : t.kind = .character → ∃ v, CharacterConstant t.text.toList v

theorem Written.of_isPunctuator {text : String} (h : t.isPunctuator text = true) (hne : text ≠ "##") :
    Written t := by
  obtain ⟨hkind, htext⟩ := Token.isPunctuator_iff.mp h
  refine ⟨?_, ?_, by simp [hkind], by simp [hkind]⟩
  · rw [Token.isLayout, hkind]
    rfl
  · rw [Token.isPunctuator, htext, decide_eq_false hne, Bool.and_false]

theorem Written.of_constant (h : t.kind = .number ∨ t.kind = .character ∨ t.kind = .identifier)
    (hcharacter : t.kind = .character → ∃ v, CharacterConstant t.text.toList v) : Written t := by
  refine ⟨?_, Token.isPunctuator_eq_false_of_kind ?_, ?_, hcharacter⟩
  · rcases h with h | h | h <;> rw [Token.isLayout, h] <;> rfl
  · rcases h with h | h | h <;> simp [h]
  · rcases h with h | h | h <;> simp [h]

theorem Written.of_name (h : t.kind = .identifier) : Written t :=
  .of_constant (.inr (.inr h)) (by simp [h])

theorem Leaf.written (h : Leaf ts x) : ∀ t ∈ ts, Written t := by
  cases h with
  | number kind h =>
    exact List.forall_mem_singleton.mpr (.of_constant (.inl kind) (by simp [kind]))
  | character kind h =>
    exact List.forall_mem_singleton.mpr (.of_constant (.inr (.inl kind)) fun _ => ⟨_, h⟩)
  | name kind ne => exact List.forall_mem_singleton.mpr (.of_name kind)
  | defined hkeyword htext kind =>
    exact List.forall_mem_cons.mpr
      ⟨.of_name hkeyword, List.forall_mem_singleton.mpr (.of_name kind)⟩
  | definedIn hkeyword htext hopened kind hclosed =>
    exact List.forall_mem_cons.mpr ⟨.of_name hkeyword,
      List.forall_mem_cons.mpr ⟨.of_isPunctuator hopened (by decide),
        List.forall_mem_cons.mpr ⟨.of_name kind,
          List.forall_mem_singleton.mpr (.of_isPunctuator hclosed (by decide))⟩⟩⟩

theorem Derives.written (h : Derives k ts x) : ∀ t ∈ ts, Written t := by
  induction h with
  | tighter lt h ih => exact ih
  | choice hc hmark ht hcolon hf ihc iht ihf =>
    exact List.forall_mem_append.mpr ⟨ihc, List.forall_mem_cons.mpr
      ⟨.of_isPunctuator hmark (by decide), List.forall_mem_append.mpr
        ⟨iht, List.forall_mem_cons.mpr ⟨.of_isPunctuator hcolon (by decide), ihf⟩⟩⟩⟩
  | @binary op t ls rs l r hl ht hr ihl ihr =>
    have hne : op.text ≠ "##" := by cases op <;> decide
    exact List.forall_mem_append.mpr
      ⟨ihl, List.forall_mem_cons.mpr ⟨.of_isPunctuator ht hne, ihr⟩⟩
  | @unary op t ts x ht h ih =>
    have hne : op.text ≠ "##" := by cases op <;> decide
    exact List.forall_mem_cons.mpr ⟨.of_isPunctuator ht hne, ih⟩
  | leaf h => exact h.written
  | group hopened h hclosed ih =>
    exact List.forall_mem_cons.mpr ⟨.of_isPunctuator hopened (by decide), List.forall_mem_append.mpr
      ⟨ih, List.forall_mem_singleton.mpr (.of_isPunctuator hclosed (by decide))⟩⟩

/-- Every token of an expression counts. -/
theorem Derives.conditionTokens_eq (h : Derives k ts x) : conditionTokens ts = ts :=
  List.filter_eq_self.mpr fun t ht => (h.written t ht).counted

theorem derives_name (kind : t.kind = .identifier) (ne : t.text ≠ "defined")
    (hk : k ≤ primaryLevel) : Derives k [t] (.name t) :=
  (Derives.leaf (.name kind ne)).mono (Nat.le_refl _) hk

theorem derives_number {v : Value} (kind : t.kind = .number)
    (h : Constant.integer t.text = .ok v) (hk : k ≤ primaryLevel) :
    Derives k [t] (.constant v) :=
  (Derives.leaf (.number kind (Constant.integer_eq_ok_iff.mp h))).mono (Nat.le_refl _) hk

end Expression

/-- Tokens whose expression is nested too deep have no value. -/
theorem not_evaluate_of_derives {s : Setting} {tokens : List Token} {x : Expression}
    (h : Expression.Derives 0 (conditionTokens tokens) x) (hnesting : s.nestingLimit < x.nesting)
    (v : Value) : (evaluate s tokens).result ≠ .ok v := by
  intro hv
  have hlexed : Lexed tokens := by
    intro t ht hkind
    have hlayout : t.isLayout = false := by rw [Token.isLayout, hkind]; rfl
    exact (h.written t (mem_conditionTokens ht hlayout (by simp [hkind]))).character hkind
  obtain ⟨y, hy, -, hfits⟩ := derives_of_evaluate hlexed hv
  rw [hy.unique h] at hfits
  omega

end CPreprocessor
