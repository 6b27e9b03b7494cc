import CPreprocessor.Location

/-!
Preprocessing tokens, and the sets of names that they are not expanded for.
-/

namespace CPreprocessor

/-! ## Hide sets

The names of the macros whose expansion produced a token. A name in the hide set of its own token is
not expanded again.
-/

/-- A finite set of macro names. -/
structure HideSet where
  names : List String := []
  nodup : names.Nodup := by exact List.nodup_nil

namespace HideSet

instance : DecidableEq HideSet := fun s t =>
  decidable_of_iff (s.names = t.names) <| by cases s; cases t; simp

instance : EmptyCollection HideSet := ⟨{}⟩

instance : Inhabited HideSet := ⟨∅⟩

instance : Membership String HideSet := ⟨fun s name => name ∈ s.names⟩

instance (name : String) (s : HideSet) : Decidable (name ∈ s) :=
  inferInstanceAs (Decidable (name ∈ s.names))

def size (s : HideSet) : Nat := s.names.length

def insert (s : HideSet) (name : String) : HideSet :=
  if h : name ∈ s.names then s else ⟨name :: s.names, List.nodup_cons.2 ⟨h, s.nodup⟩⟩

def inter (s t : HideSet) : HideSet :=
  ⟨s.names.filter (· ∈ t.names), s.nodup.filter _⟩

def union (s t : HideSet) : HideSet :=
  ⟨s.names ++ t.names.filter (· ∉ s.names), List.nodup_append.2
    ⟨s.nodup, t.nodup.filter _, fun a ha b hb hab => by simp_all⟩⟩

@[simp] theorem not_mem_empty {name : String} : name ∉ (∅ : HideSet) := List.not_mem_nil

@[simp] theorem mem_insert {s : HideSet} {name other : String} :
    other ∈ s.insert name ↔ other = name ∨ other ∈ s := by
  show other ∈ (s.insert name).names ↔ other = name ∨ other ∈ s.names
  unfold insert
  split <;> simp_all

@[simp] theorem mem_inter {s t : HideSet} {name : String} :
    name ∈ s.inter t ↔ name ∈ s ∧ name ∈ t := by
  show name ∈ s.names.filter (· ∈ t.names) ↔ name ∈ s.names ∧ name ∈ t.names
  simp

@[simp] theorem mem_union {s t : HideSet} {name : String} :
    name ∈ s.union t ↔ name ∈ s ∨ name ∈ t := by
  show name ∈ s.names ++ t.names.filter (· ∉ s.names) ↔ name ∈ s.names ∨ name ∈ t.names
  by_cases h : name ∈ s.names <;> simp [h]

end HideSet

/-! ## Tokens

Preprocessing tokens. Every character of a source belongs to a token: layout (white space, comments
and line ends) is kept as tokens of its own, so that lines can be told apart and spacing preserved.
-/

/-- What a token is. -/
inductive Kind
  | endOfInput
  | newline
  | identifier
  | number
  | string
  | character
  | punctuator
  /-- a single character that starts no other token -/
  | other
  | whitespace
  | comment
  /-- an empty operand of `##`; never found in a source -/
  | placemarker
deriving DecidableEq, Inhabited

namespace Kind

/-- The name of a kind in a dump of tokens. -/
def name : Kind → String
  | endOfInput => "EOF"
  | newline => "NEWLINE"
  | identifier => "IDENTIFIER"
  | number => "NUMBER"
  | string => "STRING"
  | character => "CHAR_LITERAL"
  | punctuator => "PUNCTUATOR"
  | other => "OTHER"
  | whitespace => "WHITESPACE"
  | comment => "COMMENT"
  | placemarker => "PLACEMARKER"

/-- Layout is never significant to expansion or evaluation. -/
def isLayout : Kind → Bool
  | whitespace | comment | newline => true
  | _ => false

end Kind

/-- A token: its kind, its spelling without line splices, the place of its first character, the
macros it came from, and whether it is barred from expansion for good. -/
structure Token where
  kind : Kind
  text : String
  location : Location
  hide : HideSet := ∅
  painted : Bool := false
deriving DecidableEq, Inhabited

namespace Token

def isLayout (t : Token) : Bool := t.kind.isLayout

/-- Whether `t` is the punctuator spelled `text`. -/
def isPunctuator (t : Token) (text : String) : Bool := t.kind = .punctuator && t.text = text

theorem isPunctuator_iff {t : Token} {text : String} :
    t.isPunctuator text = true ↔ t.kind = .punctuator ∧ t.text = text := by
  simp [isPunctuator]

theorem isPunctuator_eq_false_of_kind {t : Token} {text : String} (h : t.kind ≠ .punctuator) :
    t.isPunctuator text = false := by
  simp [isPunctuator, h]

theorem text_eq_of_isPunctuator {t : Token} {text₁ text₂ : String}
    (h₁ : t.isPunctuator text₁ = true) (h₂ : t.isPunctuator text₂ = true) : text₁ = text₂ :=
  (isPunctuator_iff.mp h₁).2.symm.trans (isPunctuator_iff.mp h₂).2

def isIdentifier (t : Token) : Bool := t.kind = .identifier

/-- The token, barred from expansion for good. -/
def paint (t : Token) : Token := { t with painted := true }

/-- The token with the names of `s` added to its hide set. -/
def hideBy (t : Token) (s : HideSet) : Token := { t with hide := t.hide.union s }

/-- The token, moved to another place. -/
def moveTo (t : Token) (location : Location) : Token := { t with location }

/-- A single blank at a place. -/
def blank (location : Location) : Token := { kind := .whitespace, text := " ", location }

end Token

/-- The tokens that are not layout. -/
def significant (tokens : List Token) : List Token := tokens.filter fun t => !t.isLayout

/-- The tokens from the first significant one on. -/
def skipLayout (tokens : List Token) : List Token := tokens.dropWhile Token.isLayout

theorem length_skipLayout_le (tokens : List Token) :
    (skipLayout tokens).length ≤ tokens.length :=
  (List.dropWhile_sublist _).length_le

/-- The tokens of a parenthesised group or an argument, without the layout at either end. -/
def trimLayout (tokens : List Token) : List Token :=
  (skipLayout (skipLayout tokens).reverse).reverse

end CPreprocessor
