import CPreprocessor.Proofs.Except
import CPreprocessor.Proofs.Expansion.Run

/-!
# What lasts through an expansion

Every token of an expansion comes from the tokens that were expanded and from the definitions by a
few operations on single tokens. A property that these operations keep holds of all tokens of the
expansion (`Expander.expand_lasting`). The places of the tokens are such a property.
-/

namespace CPreprocessor

/-- Whether a replacement list of a table has a `##`. -/
def Table.Joins (table : Table) : Prop :=
  ∃ d ∈ table.definitions, ∃ t ∈ d.replacement, t.isPunctuator "##" = true

/-- A property `Q` of tokens that lasts through the expansion of macros of a table, where names with it
stand at places with the property `P`. -/
structure Lasting (table : Table) (P : Location → Prop) (Q : Token → Prop) : Prop where
  location {t : Token} : t.isIdentifier = true → Q t → P t.location
  paint {t : Token} : Q t → Q t.paint
  hideBy {t : Token} (hide : HideSet) : Q t → Q (t.hideBy hide)
  withoutNewline {t : Token} : Q t → Q t.withoutNewline
  dynamicValue {t : Token} : Q t → Q (dynamicValue t)
  copy {d : Definition} {t : Token} {site : Location} :
    d ∈ table.definitions → t ∈ d.replacement → P site → Q (t.moveTo site)
  stringize {argument : List Token} {site : Location} :
    (∀ t ∈ argument, Q t) → P site → Q (.stringize argument site)
  placemarker {site : Location} : P site → Q (.placemarker site)
  paste {left right joined : Token} {site : Location} : table.Joins →
    Q left → Q right → P site → left.paste? right site = some joined → Q joined

namespace Token

theorem kind_dynamicValue (t : Token) :
    (dynamicValue t).kind = .number ∨ (dynamicValue t).kind = .string := by
  rw [dynamicValue]
  split
  · exact .inl rfl
  · exact .inr rfl

theorem kind_withoutNewline (t : Token) : t.withoutNewline.kind = .whitespace ∨ t.withoutNewline = t := by
  rw [withoutNewline]
  split
  · exact .inl rfl
  · exact .inr rfl

end Token

variable {table : Table} {P : Location → Prop} {Q : Token → Prop} {t : Token}
  {tokens tokens' : List Token}

theorem forall_skipLayout (h : ∀ t ∈ tokens, Q t) : ∀ t ∈ skipLayout tokens, Q t :=
  fun t ht => h t ((List.dropWhile_sublist _).subset ht)

theorem forall_trimLayout (h : ∀ t ∈ tokens, Q t) : ∀ t ∈ trimLayout tokens, Q t := by
  intro t ht
  have ht := (List.dropWhile_sublist _).subset (List.mem_reverse.mp ht)
  exact forall_skipLayout h t (List.mem_reverse.mp ht)

/-! ## Arguments -/

theorem Lasting.read (hQ : Lasting table P Q) {named depth : Nat} {variadic : Bool}
    {done : List (List Token)} {current : List Token} {list : ArgumentList}
    (h : ArgumentList.read named variadic depth done current tokens = some list)
    (hdone : ∀ a ∈ done, ∀ t ∈ a, Q t) (hcurrent : ∀ t ∈ current, Q t)
    (htokens : ∀ t ∈ tokens, Q t) :
    (∀ a ∈ list.arguments, ∀ t ∈ a, Q t) ∧ ∀ t ∈ list.rest, Q t := by
  have hconcat : ∀ {current : List Token} {t : Token}, (∀ t ∈ current, Q t) → Q t →
      ∀ u ∈ current ++ [t], Q u := fun hcurrent ht =>
    List.forall_mem_append.mpr ⟨hcurrent, List.forall_mem_singleton.mpr ht⟩
  fun_induction ArgumentList.read named variadic depth done current tokens with
  | case1 => cases h
  | case2 depth done current t ts hopen ih =>
    obtain ⟨ht, hts⟩ := List.forall_mem_cons.mp htokens
    exact ih h hdone (hconcat hcurrent ht) hts
  | case3 done current t ts hopen hclose =>
    cases h
    refine ⟨fun a ha => ?_, (List.forall_mem_cons.mp htokens).2⟩
    obtain ⟨b, hb, rfl⟩ := List.mem_map.mp ha
    rcases List.mem_append.mp hb with hb | hb
    · exact forall_trimLayout (hdone b hb)
    · rw [List.mem_singleton.mp hb]
      exact forall_trimLayout hcurrent
  | case4 depth done current t ts hopen hclose hdepth ih =>
    obtain ⟨ht, hts⟩ := List.forall_mem_cons.mp htokens
    exact ih h hdone (hconcat hcurrent ht) hts
  | case5 depth done current t ts hopen hclose hcomma ih =>
    refine ih h (List.forall_mem_append.mpr ⟨hdone, ?_⟩) (List.forall_mem_nil _)
      (List.forall_mem_cons.mp htokens).2
    exact List.forall_mem_singleton.mpr hcurrent
  | case6 depth done current t ts hopen hclose hcomma ih =>
    obtain ⟨ht, hts⟩ := List.forall_mem_cons.mp htokens
    exact ih h hdone (hconcat hcurrent (hQ.withoutNewline ht)) hts

/-! ## Replacements -/

/-- The tokens that a template copies are tokens of the replacement list. -/
theorem Definition.mem_of_copy {d : Definition} {joined : Bool}
    (h : .copy t ∈ d.pieces joined tokens) : t ∈ tokens := by
  have hskip : ∀ {rest after : List Token} {p : Token}, skipLayout rest = p :: after →
      ∀ u ∈ p :: after, u ∈ rest := by
    intro rest after p heq u hu
    rw [← heq] at hu
    exact (List.dropWhile_sublist _).subset hu
  fun_induction Definition.pieces d joined tokens with
  | case1 => cases h
  | case2 joined u rest hmark hnil ih =>
    rcases List.mem_cons.mp h with heq | h
    · cases heq
      exact List.mem_cons_self
    · exact List.mem_cons_of_mem _ (ih h)
  | case3 joined u rest hmark p after heq index hindex ih =>
    have ht := ih ((List.mem_cons.mp h).resolve_left nofun)
    exact List.mem_cons_of_mem _ (hskip heq t (List.mem_cons_of_mem _ ht))
  | case4 joined u rest hmark p after heq hindex ih =>
    rcases List.mem_cons.mp h with heq | h
    · cases heq
      exact List.mem_cons_self
    · exact List.mem_cons_of_mem _ (ih h)
  | case5 => cases (List.mem_singleton.mp h)
  | case6 joined u rest hmark hpaste p after heq hrest ih =>
    have ht := ih ((List.mem_cons.mp h).resolve_left nofun)
    exact List.mem_cons_of_mem _ (hskip heq t (List.mem_cons_of_mem _ ht))
  | case7 joined u rest hmark hpaste p after heq hrest ih =>
    have ht := ih ((List.mem_cons.mp h).resolve_left nofun)
    exact List.mem_cons_of_mem _ (hskip heq t ht)
  | case8 joined u rest hmark hpaste index hindex hjoined ih =>
    exact List.mem_cons_of_mem _ (ih ((List.mem_cons.mp h).resolve_left nofun))
  | case9 joined u rest hmark hpaste index hindex hjoined ih =>
    exact List.mem_cons_of_mem _ (ih ((List.mem_cons.mp h).resolve_left nofun))
  | case10 joined u rest hmark hpaste hindex ih =>
    rcases List.mem_cons.mp h with heq | h
    · cases heq
      exact List.mem_cons_self
    · exact List.mem_cons_of_mem _ (ih h)

namespace Filling

variable {f : Filling} {d : Draft}

/-- Whether everything that a filling puts in has a property, and so has what it makes at its place. -/
structure Has (Q : Token → Prop) (f : Filling) : Prop where
  written : ∀ index, ∀ t ∈ f.written index, Q t
  expanded : ∀ index, ∀ t ∈ f.expanded index, Q t
  stringize : ∀ index, Q (.stringize (f.written index) f.site)
  placemarker : Q (.placemarker f.site)

theorem Has.operand (hf : f.Has Q) (index : Nat) : ∀ t ∈ f.operand index, Q t := by
  unfold Filling.operand
  split
  · exact List.forall_mem_singleton.mpr hf.placemarker
  · exact hf.written index

theorem forall_append (h : ∀ t ∈ d.items, Q t) (htokens : ∀ t ∈ tokens, Q t) :
    ∀ t ∈ (d.append tokens).items, Q t :=
  List.forall_mem_append.mpr ⟨fun t ht => htokens t (List.mem_reverse.mp ht), h⟩

theorem forall_dropBlanks (h : ∀ t ∈ d.items, Q t) : ∀ t ∈ d.dropBlanks.items, Q t :=
  fun t ht => h t ((List.dropWhile_sublist _).subset ht)

theorem Has.lay (hf : f.Has Q) (hd : ∀ t ∈ d.items, Q t) {piece : Piece}
    (hpiece : ∀ t, piece = .copy t → Q (t.moveTo f.site)) : ∀ t ∈ (f.lay d piece).items, Q t := by
  cases piece with
  | copy t => exact forall_append hd (List.forall_mem_singleton.mpr (hpiece t rfl))
  | stringize index =>
    exact forall_append hd (List.forall_mem_singleton.mpr (hf.stringize index))
  | operand index => exact forall_append hd (hf.operand index)
  | argument index => exact forall_append hd (hf.expanded index)
  | join => exact forall_dropBlanks hd
  | joinRest index =>
    have hblanks := forall_dropBlanks hd
    have hoperand : ∀ t ∈ (d.join.append (f.operand index)).items, Q t :=
      forall_append hblanks (hf.operand index)
    simp only [Filling.lay]
    split
    · exact hoperand
    · rename_i t before hitems
      rw [hitems] at hblanks
      split
      · split
        · exact (List.forall_mem_cons.mp hblanks).2
        · exact forall_append (forall_dropBlanks hd) (hf.written index)
      · exact hoperand

end Filling

/-- Whether a piece notes a `##`. -/
def Piece.joins : Piece → Bool
  | .join | .joinRest _ => true
  | _ => false

/-- A template notes a `##` only if there is one in the replacement list. -/
theorem Definition.exists_of_joins {d : Definition} {joined : Bool} {piece : Piece}
    (hjoins : piece.joins = true) (h : piece ∈ d.pieces joined tokens) :
    ∃ t ∈ tokens, t.isPunctuator "##" = true := by
  have hbehind : ∀ {u : Token} {rest after : List Token}, after <:+ rest →
      (∃ t ∈ after, t.isPunctuator "##" = true) → ∃ t ∈ u :: rest, t.isPunctuator "##" = true :=
    fun hafter ⟨t, ht, hmark⟩ => ⟨t, List.mem_cons_of_mem _ (hafter.subset ht), hmark⟩
  have hskip : ∀ {rest after : List Token}, skipLayout rest = after → after <:+ rest :=
    fun heq => heq ▸ List.dropWhile_suffix _
  have hother : ∀ {first : Piece} {others : List Piece}, first.joins = false →
      piece ∈ first :: others → piece ∈ others := by
    intro first others hfirst h
    refine (List.mem_cons.mp h).resolve_left ?_
    rintro rfl
    exact absurd hjoins (hfirst ▸ Bool.false_ne_true)
  fun_induction Definition.pieces d joined tokens with
  | case1 => cases h
  | case2 joined u rest hmark hnil ih => exact hbehind (List.suffix_refl _) (ih (hother rfl h))
  | case3 joined u rest hmark p after heq index hindex ih =>
    exact hbehind ((List.suffix_cons _ _).trans (hskip heq)) (ih (hother rfl h))
  | case4 joined u rest hmark p after heq hindex ih =>
    exact hbehind (List.suffix_refl _) (ih (hother rfl h))
  | case5 joined u rest hmark hpaste hnil => exact ⟨u, List.mem_cons_self, hpaste⟩
  | case6 joined u rest hmark hpaste => exact ⟨u, List.mem_cons_self, hpaste⟩
  | case7 joined u rest hmark hpaste => exact ⟨u, List.mem_cons_self, hpaste⟩
  | case8 joined u rest hmark hpaste index hindex hjoined ih =>
    exact hbehind (List.suffix_refl _) (ih (hother rfl h))
  | case9 joined u rest hmark hpaste index hindex hjoined ih =>
    exact hbehind (List.suffix_refl _) (ih (hother rfl h))
  | case10 joined u rest hmark hpaste hindex ih =>
    exact hbehind (List.suffix_refl _) (ih (hother rfl h))

theorem Filling.joins_foldl_lay {f : Filling} {template : List Piece}
    (h : ∀ piece ∈ template, piece.joins = false) (d : Draft) :
    (template.foldl f.lay d).joins = d.joins := by
  induction template generalizing d with
  | nil => rfl
  | cons piece template ih =>
    obtain ⟨hpiece, htemplate⟩ := List.forall_mem_cons.mp h
    refine (ih htemplate (f.lay d piece)).trans ?_
    cases piece with
    | join => cases hpiece
    | joinRest index => cases hpiece
    | _ => rfl

/-- What pasting keeps, joining keeps. Where there is nothing to join, nothing is pasted. -/
theorem Filling.forall_joinItems {joins : List Nat} {site : Location} {position : Nat}
    {done : List Token}
    (hpaste : joins ≠ [] → ∀ {left right joined : Token}, Q left → Q right →
      left.paste? right site = some joined → Q joined)
    (h : joinItems joins site position done tokens = .ok tokens')
    (hdone : ∀ t ∈ done, Q t) (htokens : ∀ t ∈ tokens, Q t) : ∀ t ∈ tokens', Q t := by
  fun_induction Filling.joinItems joins site position done tokens with
  | case1 =>
    cases h
    exact fun t ht => hdone t (List.mem_reverse.mp ht)
  | case2 position t ts ih =>
    obtain ⟨ht, hts⟩ := List.forall_mem_cons.mp htokens
    exact ih h (List.forall_mem_singleton.mpr ht) hts
  | case3 position t ts left before hjoin joined hjoined ih =>
    obtain ⟨ht, hts⟩ := List.forall_mem_cons.mp htokens
    obtain ⟨hleft, hbefore⟩ := List.forall_mem_cons.mp hdone
    have hjoins : joins ≠ [] := by
      rintro rfl
      cases hjoin
    exact ih h (List.forall_mem_cons.mpr ⟨hpaste hjoins hleft ht hjoined, hbefore⟩) hts
  | case4 => cases h
  | case5 position t ts left before hjoin ih =>
    obtain ⟨ht, hts⟩ := List.forall_mem_cons.mp htokens
    exact ih h (List.forall_mem_cons.mpr ⟨ht, hdone⟩) hts

/-- What a filling has and a template copies is what the filled template has, if pasting keeps it. -/
theorem Filling.Has.fill {f : Filling} {template : List Piece} (hf : f.Has Q)
    (hcopy : ∀ t, .copy t ∈ template → Q (t.moveTo f.site))
    (hpaste : (template.foldl f.lay {}).joins ≠ [] → ∀ {left right joined : Token}, Q left → Q right →
      left.paste? right f.site = some joined → Q joined)
    (hfill : f.fill template = .ok tokens) : ∀ t ∈ tokens, Q t := by
  have hlay : ∀ (template : List Piece) (d : Draft),
      (∀ t, .copy t ∈ template → Q (t.moveTo f.site)) → (∀ t ∈ d.items, Q t) →
        ∀ t ∈ (template.foldl f.lay d).items, Q t := by
    intro template
    induction template with
    | nil => exact fun d _ hd => hd
    | cons piece template ih =>
      intro d hcopies hd
      refine ih _ (fun t ht => hcopies t (List.mem_cons_of_mem _ ht)) (hf.lay hd ?_)
      rintro t rfl
      exact hcopies t List.mem_cons_self
  have hitems := hlay template {} hcopy nofun
  exact forall_joinItems hpaste hfill nofun fun t ht => hitems t (List.mem_reverse.mp ht)

/-- A token of a filled template stands at the place of the filling, or it is one of an argument. -/
theorem Filling.location_or_mem_of_fill {f : Filling} {template : List Piece}
    (hfill : f.fill template = .ok tokens) :
    ∀ t ∈ tokens, t.location = f.site ∨ ∃ index, t ∈ f.written index ∨ t ∈ f.expanded index := by
  have hf : f.Has fun t => t.location = f.site ∨ ∃ index, t ∈ f.written index ∨ t ∈ f.expanded index :=
    { written index t ht := .inr ⟨index, .inl ht⟩
      expanded index t ht := .inr ⟨index, .inr ht⟩
      stringize index := .inl rfl
      placemarker := .inl rfl }
  refine hf.fill (fun t _ => .inl rfl) (fun _ => ?_) hfill
  intro left right joined hleft hright hpaste
  rcases Token.cases_of_paste? hpaste with rfl | rfl | ⟨-, -, kind, text, -, -, rfl⟩
  · exact hright
  · exact hleft
  · exact .inl rfl

theorem Lasting.fill (hQ : Lasting table P Q) {f : Filling} {definition : Definition}
    (hdefinition : definition ∈ table.definitions) (hf : f.Has Q) (hsite : P f.site)
    (hfill : f.fill definition.template = .ok tokens) : ∀ t ∈ tokens, Q t := by
  have hjoins : (definition.template.foldl f.lay {}).joins ≠ [] → table.Joins := by
    intro hne
    refine Classical.byContradiction fun hnone => hne (Filling.joins_foldl_lay ?_ {})
    intro piece hpiece
    refine Bool.eq_false_iff.mpr fun hjoin => ?_
    exact hnone ⟨definition, hdefinition, Definition.exists_of_joins hjoin hpiece⟩
  exact hf.fill (fun t ht => hQ.copy hdefinition (Definition.mem_of_copy ht) hsite)
    (fun hne _ _ _ hleft hright => hQ.paste (hjoins hne) hleft hright hsite) hfill

/-! ## Invocations -/

namespace Invocation

variable {i : Invocation} {expanded : List (Nat × List Token)}

theorem exists_of_mem_argument {index : Nat} (ht : t ∈ i.argument index) : ∃ a ∈ i.arguments, t ∈ a := by
  unfold argument at ht
  cases hargument : i.arguments[index]? with
  | none =>
    rw [hargument] at ht
    cases ht
  | some a =>
    rw [hargument] at ht
    exact ⟨a, List.mem_of_getElem? hargument, ht⟩

theorem exists_of_mem_lookup {index : Nat} (ht : t ∈ (expanded.lookup index).getD []) :
    ∃ entry ∈ expanded, t ∈ entry.2 := by
  cases hlookup : expanded.lookup index with
  | none =>
    rw [hlookup] at ht
    cases ht
  | some found =>
    rw [hlookup] at ht
    obtain ⟨before, after, heq, -⟩ := List.lookup_eq_some_iff.mp hlookup
    exact ⟨(index, found), by simp [heq], ht⟩

/-- A token of a replacement stands where the invocation does, or it is one of an argument, as it was
written or expanded, but for the names that it hides. -/
theorem location_or_mem_of_replacement (h : i.replacement expanded = .ok tokens) :
    ∀ t ∈ tokens, t.location = i.site.location ∨
      ∃ u, t = u.hideBy i.hide ∧ ((∃ a ∈ i.arguments, u ∈ a) ∨ ∃ entry ∈ expanded, u ∈ entry.2) := by
  simp only [replacement] at h
  split at h
  · cases h
  · rename_i filled hfill
    cases h
    intro t ht
    obtain ⟨u, hu, rfl⟩ := List.mem_map.mp ht
    obtain hsite | ⟨index, hwritten | hexpanded⟩ := Filling.location_or_mem_of_fill hfill u hu
    · exact .inl hsite
    · exact .inr ⟨u, rfl, .inl (exists_of_mem_argument hwritten)⟩
    · exact .inr ⟨u, rfl, .inr (exists_of_mem_lookup hexpanded)⟩

end Invocation

/-- Whether an invocation by a definition of a table was found among tokens with a property. -/
structure Invocation.Has (table : Table) (P : Location → Prop) (Q : Token → Prop) (i : Invocation) :
    Prop where
  definition : i.definition ∈ table.definitions
  site : P i.site.location
  arguments : ∀ a ∈ i.arguments, ∀ t ∈ a, Q t
  rest : ∀ t ∈ i.rest, Q t

namespace Invocation.Has

variable {i : Invocation}

theorem argument (h : i.Has table P Q) (index : Nat) : ∀ t ∈ i.argument index, Q t := by
  intro t ht
  obtain ⟨a, ha, ht⟩ := exists_of_mem_argument ht
  exact h.arguments a ha t ht

theorem replacement (h : i.Has table P Q) (hQ : Lasting table P Q)
    {expanded : List (Nat × List Token)} (hexpanded : ∀ entry ∈ expanded, ∀ t ∈ entry.2, Q t)
    (hbody : i.replacement expanded = .ok tokens) : ∀ t ∈ tokens, Q t := by
  simp only [Invocation.replacement] at hbody
  split at hbody
  · cases hbody
  · rename_i filled hfill
    cases hbody
    have hhas : Filling.Has Q
        { written := i.argument, expanded := fun index => (expanded.lookup index).getD [],
          site := i.site.location } :=
      { written := h.argument
        expanded index t ht := by
          obtain ⟨entry, hentry, ht⟩ := Invocation.exists_of_mem_lookup ht
          exact hexpanded entry hentry t ht
        stringize index := hQ.stringize (h.argument index) h.site
        placemarker := hQ.placemarker h.site }
    intro t ht
    obtain ⟨u, hu, rfl⟩ := List.mem_map.mp ht
    exact hQ.hideBy _ (hQ.fill h.definition hhas h.site hfill u hu)

theorem error_replacement {expanded : List (Nat × List Token)} {error : ExpansionError}
    (h : i.replacement expanded = .error error) : error.location = some i.site.location := by
  simp only [Invocation.replacement] at h
  split at h
  · cases h
    rfl
  · cases h

end Invocation.Has

/-! ## Expansion -/

namespace Expander

variable {e : Expander} {rest : List Token}

theorem lookup_of_definition? {d : Definition} (h : e.definition? t = some d) :
    e.table.lookup t.text = some d := by
  unfold definition? at h
  split at h
  · exact h
  · cases h

theorem mem_of_definition? {d : Definition} (h : e.definition? t = some d) :
    d ∈ e.table.definitions :=
  List.mem_of_find?_eq_some (lookup_of_definition? h)

theorem isIdentifier_of_definition? {d : Definition} (h : e.definition? t = some d) :
    t.isIdentifier = true := by
  unfold definition? at h
  split at h
  · rename_i hname
    exact (Bool.and_eq_true_iff.mp (Bool.and_eq_true_iff.mp hname).1).1
  · cases h

/-- Only a name can fail to be expanded. -/
theorem isIdentifier_of_turn {error : ExpansionError} (h : e.turn t rest = .error error) :
    t.isIdentifier = true := by
  unfold turn at h
  split at h
  · cases h
  · rename_i d hdefinition
    exact isIdentifier_of_definition? hdefinition

theorem has_call {d : Definition} {i : Invocation} (hQ : Lasting e.table P Q)
    (hd : d ∈ e.table.definitions) (h : call d t rest = .ok i) (hname : t.isIdentifier = true)
    (ht : Q t) (hrest : ∀ t ∈ rest, Q t) : i.Has e.table P Q := by
  unfold call at h
  split at h
  · cases h
  · rename_i list hlist
    have hpending : ∀ t ∈ (skipLayout rest).tail, Q t := fun t ht =>
      forall_skipLayout hrest t (List.mem_of_mem_tail ht)
    obtain ⟨harguments, hafter⟩ := hQ.read hlist nofun nofun hpending
    split at h
    · cases h
    · rename_i arguments hsupply
      cases h
      refine ⟨hd, hQ.location hname ht, fun a ha => ?_, hafter⟩
      rcases ArgumentList.mem_of_supply hsupply a ha with ha | rfl
      · exact harguments a ha
      · exact nofun

/-- What the turn of a token makes of it. -/
def Turn.Has (table : Table) (P : Location → Prop) (Q : Token → Prop) : Turn → Prop
  | .emit t => Q t
  | .invoke i => i.Has table P Q

theorem has_turn {turn : Turn} (hQ : Lasting e.table P Q) (h : e.turn t rest = .ok turn) (ht : Q t)
    (hrest : ∀ t ∈ rest, Q t) : Turn.Has e.table P Q turn := by
  unfold Expander.turn at h
  split at h
  · cases h
    exact ht
  rename_i d hdefinition
  have hd := mem_of_definition? hdefinition
  have hname := isIdentifier_of_definition? hdefinition
  split at h
  · cases h
    exact hQ.paint ht
  split at h
  · cases h
    exact hQ.dynamicValue ht
  split at h
  · cases h
    exact ⟨hd, hQ.location hname ht, nofun, hrest⟩
  split at h
  · obtain ⟨i, hcall, rfl⟩ := map_eq_ok_iff.mp h
    exact has_call hQ hd hcall hname ht hrest
  · cases h
    exact ht

theorem location_turn {error : ExpansionError} (h : e.turn t rest = .error error) :
    error.location = some t.location := by
  unfold Expander.turn at h
  split at h
  · cases h
  split at h
  · cases h
  split at h
  · cases h
  split at h
  · cases h
  split at h
  · have hcall := map_eq_error_iff.mp h
    unfold call at hcall
    split at hcall
    · cases hcall
      rfl
    split at hcall
    · cases hcall
      rfl
    · cases hcall
  · cases h

/-- What comes of an expansion: finished tokens with a property, or an error at a place with one. -/
def Outcome (P : Location → Prop) (Q : Token → Prop) : Except ExpansionError Progress → Prop
  | .ok p => ∀ t ∈ p.output, Q t
  | .error error => ∀ location ∈ error.location, P location

theorem outcome_arguments {depth : Nat} {i : Invocation} (hi : i.Has e.table P Q)
    (indices : List Nat) (h : ∀ index, Outcome P Q (e.run (depth + 1) {} (i.argument index))) :
    match runArguments e depth i indices with
    | .ok inner => ∀ p ∈ inner, ∀ t ∈ p.output, Q t
    | .error error => ∀ location ∈ error.location, P location := by
  unfold runArguments
  induction indices with
  | nil => exact nofun
  | cons index indices ih =>
    rw [mapM_cons_except]
    by_cases hdeep : e.exceeds (depth + 1) 0 = true
    · rw [if_pos hdeep]
      rintro location ⟨⟩
      exact hi.site
    · rw [if_neg hdeep]
      have hindex := h index
      cases hrun : e.run (depth + 1) {} (i.argument index) with
      | error error =>
        rw [hrun] at hindex
        exact hindex
      | ok p =>
        rw [hrun] at hindex
        simp only
        split at ih
        · rename_i inner hinner
          rw [hinner]
          exact List.forall_mem_cons.mpr ⟨hindex, ih⟩
        · rename_i error herror
          rw [herror]
          exact ih

theorem mem_zip_tokens {indices : List Nat} {inner : List Progress}
    (h : ∀ p ∈ inner, ∀ t ∈ p.output, Q t) :
    ∀ entry ∈ indices.zip (inner.map Progress.tokens), ∀ t ∈ entry.2, Q t := by
  rintro ⟨index, tokens⟩ hentry t ht
  obtain ⟨p, hp, rfl⟩ := List.mem_map.mp (List.of_mem_zip hentry).2
  exact h p hp t (List.mem_reverse.mp ht)

theorem run_lasting (hQ : Lasting e.table P Q) (depth : Nat) (done : Progress)
    (tokens : List Token) (hdone : ∀ t ∈ done.output, Q t) (h : ∀ t ∈ tokens, Q t) :
    Outcome P Q (e.run depth done tokens) := by
  induction depth, done, tokens using run_induction with
  | nil depth done => exact hdone
  | failed depth done t rest error hturn =>
    rw [Outcome, location_turn hturn]
    rintro _ ⟨⟩
    exact hQ.location (isIdentifier_of_turn hturn) (h t List.mem_cons_self)
  | emit depth done t rest u hturn ih =>
    obtain ⟨ht, hrest⟩ := List.forall_mem_cons.mp h
    exact ih (List.forall_mem_cons.mpr ⟨has_turn hQ hturn ht hrest, hdone⟩) hrest
  | deep depth done t rest i hturn hdeep =>
    obtain ⟨ht, hrest⟩ := List.forall_mem_cons.mp h
    have hi : i.Has e.table P Q := has_turn hQ hturn ht hrest
    rintro _ ⟨⟩
    exact hi.site
  | argument depth done t rest i error hturn hdeep hinner ih =>
    obtain ⟨ht, hrest⟩ := List.forall_mem_cons.mp h
    have hi : i.Has e.table P Q := has_turn hQ hturn ht hrest
    have harguments := outcome_arguments hi i.expandedIndices fun index =>
      ih index nofun (hi.argument index)
    rw [hinner] at harguments
    exact harguments
  | replacement depth done t rest i inner error hturn hdeep hinner hbody ih =>
    obtain ⟨ht, hrest⟩ := List.forall_mem_cons.mp h
    have hi : i.Has e.table P Q := has_turn hQ hturn ht hrest
    rw [Outcome, Invocation.Has.error_replacement hbody]
    rintro _ ⟨⟩
    exact hi.site
  | invoke depth done t rest i inner body hturn hdeep hinner hbody iharguments ih =>
    obtain ⟨ht, hrest⟩ := List.forall_mem_cons.mp h
    have hi : i.Has e.table P Q := has_turn hQ hturn ht hrest
    have harguments := outcome_arguments hi i.expandedIndices fun index =>
      iharguments index nofun (hi.argument index)
    rw [hinner] at harguments
    have hbody := hi.replacement hQ (mem_zip_tokens harguments) hbody
    exact ih hdone (List.forall_mem_append.mpr ⟨hbody, hi.rest⟩)

/-- A property that lasts holds of the expansion of tokens with it, or of the place of the error that
ends it. -/
theorem expand_lasting (hQ : Lasting e.table P Q) (h : ∀ t ∈ tokens, Q t) :
    match e.expand tokens with
    | .ok expansion => ∀ t ∈ expansion.tokens, Q t ∧ t.kind ≠ .placemarker
    | .error error => ∀ location ∈ error.location, P location := by
  have hrun := run_lasting hQ 0 {} (tokens.filter fun t => t.kind ≠ .endOfInput) nofun
    fun t ht => h t (List.mem_filter.mp ht).1
  unfold expand
  cases hresult : e.run 0 {} (tokens.filter fun t => t.kind ≠ .endOfInput) with
  | error error =>
    rw [hresult] at hrun
    exact hrun
  | ok p =>
    rw [hresult] at hrun
    intro t ht
    obtain ⟨ht, hkind⟩ := List.mem_filter.mp ht
    exact ⟨hrun t (List.mem_reverse.mp ht), of_decide_eq_true hkind⟩

end Expander

/-! ## Where expanded tokens stand

Every token of an expansion stands where some token that was expanded does, and so does every error
in it (`Expander.expand_origin`). The places in definitions do not show.
-/

/-- Whether all tokens stand at places with a property. -/
def StandAt (P : Location → Prop) (tokens : List Token) : Prop := ∀ t ∈ tokens, P t.location

variable {tokens tokens' : List Token}

namespace StandAt

theorem head (h : StandAt P (t :: tokens)) : P t.location := h t List.mem_cons_self

theorem sublist (h : StandAt P tokens) (hsub : tokens'.Sublist tokens) : StandAt P tokens' :=
  fun u hu => h u (hsub.subset hu)

end StandAt

namespace Token

theorem location_withoutNewline (t : Token) : t.withoutNewline.location = t.location := by
  rw [withoutNewline]
  split
  · rfl
  · rfl

theorem location_dynamicValue (t : Token) : (dynamicValue t).location = t.location := by
  rw [dynamicValue]
  split
  · rfl
  · rfl

theorem location_paste? {left right joined : Token} {site : Location}
    (h : left.paste? right site = some joined) :
    joined.location = left.location ∨ joined.location = right.location ∨
      joined.location = site := by
  rcases cases_of_paste? h with rfl | rfl | ⟨-, -, kind, text, -, -, rfl⟩
  · exact .inr (.inl rfl)
  · exact .inl rfl
  · exact .inr (.inr rfl)

end Token

/-- That tokens stand at places with a property lasts through every expansion. -/
theorem Lasting.standAt (table : Table) (P : Location → Prop) :
    Lasting table P fun t => P t.location where
  location _ := id
  paint := id
  hideBy _ := id
  withoutNewline {t} h := t.location_withoutNewline ▸ h
  dynamicValue {t} h := t.location_dynamicValue ▸ h
  copy _ _ := id
  stringize _ := id
  placemarker := id
  paste _ hleft hright hsite hpaste := by
    rcases Token.location_paste? hpaste with heq | heq | heq
    · exact heq ▸ hleft
    · exact heq ▸ hright
    · exact heq ▸ hsite

/-- An expansion, or the error that ends it, stands where the tokens that were expanded do. -/
theorem Expander.expand_origin (e : Expander) (h : StandAt P tokens) :
    match e.expand tokens with
    | .ok expansion => StandAt P expansion.tokens
    | .error error => ∀ location ∈ error.location, P location := by
  have hlasts := expand_lasting (.standAt e.table P) h
  revert hlasts
  cases e.expand tokens with
  | ok expansion => exact fun hlasts t ht => (hlasts t ht).1
  | error error => exact id

end CPreprocessor
