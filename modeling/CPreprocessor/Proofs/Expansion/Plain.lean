import CPreprocessor.Proofs.Expansion.ActiveSet
import CPreprocessor.Proofs.Expansion.Concatenation
import CPreprocessor.Proofs.Expansion.Joining
import CPreprocessor.Proofs.Expansion.Template

/-!
# Tokens that expand to themselves

Tokens that are no macro names stay as they are (`Expander.expand_plain`), whatever comes after them
(`Expander.expand_plain_append`). With these, a macro whose replacement list has no `##` is its
replacement list, at the place of its name and hiding it (`Expander.expand_object`).
-/

namespace CPreprocessor

/-! ## Replacement lists without `##` -/

namespace Definition

variable {d : Definition} {tokens : List Token}

theorem pieces_of_plain (h : d.isFunction = false)
    (hplain : ∀ t ∈ tokens, t.isPunctuator "##" = false) (joined : Bool) :
    d.pieces joined tokens = tokens.map .copy := by
  induction tokens generalizing joined with
  | nil => rw [pieces, List.map_nil]
  | cons t tokens ih =>
    obtain ⟨ht, htokens⟩ := List.forall_mem_cons.mp hplain
    have hobject : ¬ d.isFunction = true := Bool.eq_false_iff.mp h
    rw [pieces_copy (by rw [h, Bool.false_and]) ht (fun hown => absurd hown hobject), ih htokens,
      List.map_cons]

theorem foldl_lay_copy (f : Filling) (tokens : List Token) (draft : Draft) :
    (tokens.map Piece.copy).foldl f.lay draft =
      { draft with items := (tokens.map (·.moveTo f.site)).reverse ++ draft.items } := by
  induction tokens generalizing draft with
  | nil => rfl
  | cons t tokens ih =>
    rw [List.map_cons, List.foldl_cons, ih, List.map_cons, List.reverse_cons, List.append_assoc]
    rfl

theorem pastedBody_of_plain (h : d.isFunction = false)
    (hplain : ∀ t ∈ d.replacement, t.isPunctuator "##" = false) (site : Location) :
    d.pastedBody site = .ok (d.replacement.map (·.moveTo site)) := by
  rw [pastedBody, Filling.fill, template, pieces_of_plain h hplain, foldl_lay_copy]
  simp only [List.append_nil, List.reverse_reverse]
  exact Filling.joinItems_nil _

end Definition

/-! ## Tokens that stay as they are -/

namespace Expander

variable {e : Expander} {depth : Nat} {done : Progress} {t : Token} {tokens after : List Token}

theorem definition?_of_kind (h : t.kind ≠ .identifier) : e.definition? t = none := by
  rw [definition?, if_neg]
  simp [Token.isIdentifier, h]

theorem run_plain_append (h : ∀ t ∈ tokens, e.definition? t = none) (after : List Token) :
    e.run depth done (tokens ++ after) =
      e.run depth { done with output := tokens.reverse ++ done.output } after := by
  induction tokens generalizing done with
  | nil => rfl
  | cons t tokens ih =>
    obtain ⟨ht, htokens⟩ := List.forall_mem_cons.mp h
    have hturn : e.turn t (tokens ++ after) = .ok (.emit t) := by rw [turn, ht]
    rw [List.cons_append, run_of_emit hturn, ih htokens, Progress.emit, List.reverse_cons,
      List.append_assoc]
    rfl

theorem run_plain (h : ∀ t ∈ tokens, e.definition? t = none) :
    e.run depth done tokens = .ok { done with output := tokens.reverse ++ done.output } := by
  rw [← tokens.append_nil, run_plain_append h, run_nil, tokens.append_nil]

end Expander

/-- A token of a replacement list, in the place of the name `t`. -/
def Token.inPlaceOf (t u : Token) : Token :=
  (u.moveTo t.location).within (HideSet.insert ∅ t.text)

/-- Tokens of a replacement list, in the place of the name `t`. -/
def inPlaceOf (t : Token) (tokens : List Token) : List Token := tokens.map t.inPlaceOf

/-- Whether a token is left out neither before nor after an expansion. -/
def Token.Stays (t : Token) : Prop := t.kind ≠ .endOfInput ∧ t.kind ≠ .placemarker

theorem Token.kind_of_isLayout {t : Token} (h : t.isLayout = true) : t.kind ≠ .identifier ∧ t.Stays := by
  refine ⟨?_, ?_, ?_⟩ <;> rintro hkind <;> rw [isLayout, hkind] at h <;> cases h

namespace Expander

variable {e : Expander} {t u : Token} {tokens before after : List Token}

theorem filter_of_stays {kind : Kind} (hkind : kind = .endOfInput ∨ kind = .placemarker)
    (h : ∀ t ∈ tokens, t.Stays) : (tokens.filter fun t => t.kind ≠ kind) = tokens := by
  refine List.filter_eq_self.mpr fun t ht => decide_eq_true ?_
  rcases hkind with rfl | rfl
  · exact (h t ht).1
  · exact (h t ht).2

theorem expand_plain (hkinds : ∀ t ∈ tokens, t.Stays) (h : ∀ t ∈ tokens, e.definition? t = none) :
    e.expand tokens = .ok ⟨tokens, []⟩ := by
  rw [expand, filter_of_stays (.inl rfl) hkinds, run_plain h]
  simp only [Except.map, Progress.tokens, List.append_nil, List.reverse_reverse, List.reverse_nil]
  rw [filter_of_stays (.inr rfl) hkinds]

theorem opensArguments_eq_false (h : ∀ t ∈ tokens, t.isLayout = true ∨ t.text ≠ "(") :
    opensArguments tokens = false := by
  have hhead := List.head?_dropWhile_not Token.isLayout tokens
  rw [opensArguments, skipLayout]
  cases hskip : tokens.dropWhile Token.isLayout with
  | nil => rfl
  | cons t rest =>
    have hsuffix : t :: rest <:+ tokens := hskip ▸ List.dropWhile_suffix _
    rw [hskip] at hhead
    have hlayout : t.isLayout = false := hhead
    have htext := (h t (hsuffix.subset List.mem_cons_self)).resolve_left (by simp [hlayout])
    simp [Token.isPunctuator, htext]

/-- A token that its turn leaves in front of such tokens. -/
theorem expand_emit_plain (hturn : e.turn t tokens = .ok (.emit u)) (hkind : t.kind ≠ .endOfInput)
    (hu : u.kind ≠ .placemarker) (hkinds : ∀ t ∈ tokens, t.Stays)
    (h : ∀ t ∈ tokens, e.definition? t = none) : e.expand (t :: tokens) = .ok ⟨u :: tokens, []⟩ := by
  rw [expand, List.filter_cons_of_pos (by simpa using hkind), filter_of_stays (.inl rfl) hkinds,
    run_of_emit hturn, run_plain h]
  simp only [Except.map, Progress.tokens, Progress.emit, List.reverse_append, List.reverse_reverse,
    List.reverse_cons, List.reverse_nil, List.nil_append, List.singleton_append]
  rw [List.filter_cons_of_pos (by simpa using hu), filter_of_stays (.inr rfl) hkinds]

theorem stays_inPlaceOf (t : Token) (h : ∀ u ∈ tokens, u.Stays) : ∀ u ∈ inPlaceOf t tokens, u.Stays := by
  intro u hu
  obtain ⟨v, hv, rfl⟩ := List.mem_map.mp hu
  exact h v hv

/-- A macro without parameters is replaced by its replacement list, at the place of its name. -/
theorem expand_object {d : Definition} (ht : t.hide = ∅) (hreplacing : e.replacing? ∅ t = some d)
    (hobject : d.isFunction = false) (hlimit : 1 ≤ e.limit)
    (hplain : ∀ u ∈ d.replacement, u.isPunctuator "##" = false ∧ u.hide = ∅ ∧ u.Stays)
    (after : List Token) :
    e.expand (t :: after) = (e.expand (inPlaceOf t d.replacement ++ after)).map fun expansion =>
      ⟨expansion.tokens, t.text :: expansion.trace⟩ := by
  have hname : t.kind ≠ .endOfInput := by
    intro hkind
    have hdefinition := (replacing?_eq_some hreplacing).1
    rw [definition?_of_kind (by rw [hkind]; decide)] at hdefinition
    cases hdefinition
  have hsize : ¬ e.limit < (HideSet.insert ∅ t.text).size := by
    have hone : (HideSet.insert ∅ t.text).size = 1 := by simp [HideSet.insert, HideSet.size]; rfl
    omega
  have hinvoke := run_within_invoke hobject (fun u hu => (hplain u hu).2.1) hreplacing {}
    (after.filter fun t => t.kind ≠ .endOfInput)
  rw [show t.within ∅ = t by rw [Token.within, ← ht], if_neg hsize,
    Definition.pastedBody_of_plain hobject fun u hu => (hplain u hu).1] at hinvoke
  dsimp only at hinvoke
  rw [List.map_map] at hinvoke
  have hatop := run_atop (e := e) (Progress.invoke {} t.text []) 0 {}
    (inPlaceOf t d.replacement ++ after.filter fun t => t.kind ≠ .endOfInput)
  have hrun := hinvoke.trans hatop
  rw [expand, List.filter_cons_of_pos (by simpa using hname), hrun, expand, List.filter_append,
    filter_of_stays (.inl rfl) (stays_inPlaceOf t fun u hu => (hplain u hu).2.2)]
  cases e.run 0 {} _ with
  | error error => rfl
  | ok p => simp [Except.map, Progress.atop, Progress.invoke, Progress.tokens]

/-- Tokens that stay are expanded apart from what follows. -/
theorem expand_plain_append (hkinds : ∀ t ∈ tokens, t.Stays)
    (h : ∀ t ∈ tokens, e.definition? t = none) (after : List Token) :
    e.expand (tokens ++ after) = (e.expand after).map fun expansion =>
      ⟨tokens ++ expansion.tokens, expansion.trace⟩ := by
  have hatop := run_atop (e := e) { output := tokens.reverse } 0 {}
    (after.filter fun t => t.kind ≠ .endOfInput)
  rw [expand, List.filter_append, filter_of_stays (.inl rfl) hkinds, run_plain_append h, List.append_nil,
    expand]
  refine (congrArg (Except.map _) hatop).trans ?_
  cases e.run 0 {} (after.filter fun t => t.kind ≠ .endOfInput) with
  | error error => rfl
  | ok p =>
    simp only [Except.map, Progress.atop, Progress.tokens, List.reverse_append, List.reverse_reverse,
      List.filter_append, List.append_nil]
    rw [filter_of_stays (.inr rfl) hkinds]

end Expander

end CPreprocessor
