import Mathlib
import CPreprocessor.Proofs.Expansion.Joining
import CPreprocessor.Proofs.Expansion.Machine

/-!
# Empty operands of `##` that are left over

An empty operand of `##` leaves a mark, which stays among the pending tokens unless it is joined to
something. `Expander.expandErasing` is the expansion that removes these marks from every replacement at
once. The two come to the same as long as the marks stand where nothing looks at them
(`Expander.expand_eq_expandErasing`): not between a name and the `(` that it takes, not in an argument
list, and not in an expanded argument beside a `##` that may take a comma away (`Machine.Clear`).
-/

namespace CPreprocessor

/-- Whether no token is the mark of an empty operand. -/
def Plain (tokens : List Token) : Prop := ∀ t ∈ tokens, t.kind ≠ .placemarker

section
variable {t : Token} {tokens rest : List Token}

theorem Plain.erased (h : Plain tokens) : erased tokens = tokens :=
  List.filter_eq_self.mpr fun t ht => decide_eq_true (h t ht)

theorem plain_erased (tokens : List Token) : Plain (erased tokens) := fun _ ht =>
  of_decide_eq_true (List.mem_filter.mp ht).2

theorem erased_cons_of_ne (h : t.kind ≠ .placemarker) : erased (t :: rest) = t :: erased rest :=
  List.filter_cons_of_pos (decide_eq_true h)

theorem erased_cons_of_eq (h : t.kind = .placemarker) : erased (t :: rest) = erased rest :=
  List.filter_cons_of_neg (by simp [h])

theorem erased_reverse (tokens : List Token) : erased tokens.reverse = (erased tokens).reverse :=
  List.filter_reverse

/-! ## Argument lists -/

theorem kind_ne_of_isLayout (h : t.isLayout = true) : t.kind ≠ .placemarker := by
  intro hkind
  rw [Token.isLayout, hkind] at h
  cases h

/-- Where a `(` comes next, nothing is left over before it. -/
theorem skipLayout_erased (h : opensArguments rest = true) :
    skipLayout (erased rest) = erased (skipLayout rest) := by
  induction rest with
  | nil => rfl
  | cons t rest ih =>
    by_cases ht : t.isLayout = true
    · have hskip : skipLayout (t :: rest) = skipLayout rest := List.dropWhile_cons_of_pos ht
      rw [opensArguments, hskip] at h
      rw [erased_cons_of_ne (kind_ne_of_isLayout ht), hskip, ← ih h]
      exact List.dropWhile_cons_of_pos ht
    · have hskip : ∀ rest, skipLayout (t :: rest) = t :: rest := fun _ => List.dropWhile_cons_of_neg ht
      rw [opensArguments, hskip] at h
      rw [hskip, erased_cons_of_ne (kind_ne_of_isPunctuator h nofun), hskip]

theorem mem_skipLayout (ht : t.isLayout = false) (hmem : t ∈ tokens) : t ∈ skipLayout tokens := by
  rw [← List.takeWhile_append_dropWhile (p := Token.isLayout) (l := tokens)] at hmem
  rcases List.mem_append.mp hmem with hmem | hmem
  · rw [List.mem_takeWhile_imp hmem] at ht
    cases ht
  · exact hmem

theorem mem_trimLayout (ht : t.isLayout = false) (hmem : t ∈ tokens) : t ∈ trimLayout tokens :=
  List.mem_reverse.mpr (mem_skipLayout ht (List.mem_reverse.mpr (mem_skipLayout ht hmem)))

namespace ArgumentList

variable {named depth : Nat} {variadic : Bool} {done : List (List Token)} {current : List Token}
  {list : ArgumentList}

/-- Every token that is taken in and is no layout is part of an argument. -/
theorem mem_read (h : read named variadic depth done current tokens = some list)
    (ht : t.isLayout = false) (hmem : ∃ a ∈ done ++ [current], t ∈ a) :
    ∃ a ∈ list.arguments, t ∈ a := by
  have hmore : ∀ {done : List (List Token)} {current : List Token} (u : Token),
      (∃ a ∈ done ++ [current], t ∈ a) → ∃ a ∈ done ++ [current ++ [u]], t ∈ a := by
    rintro done current u ⟨a, ha, hta⟩
    rcases List.mem_append.mp ha with ha | ha
    · exact ⟨a, List.mem_append_left _ ha, hta⟩
    · rw [List.mem_singleton.mp ha] at hta
      exact ⟨_, List.mem_append_right _ (List.mem_singleton_self _), List.mem_append_left _ hta⟩
  fun_induction read named variadic depth done current tokens with
  | case1 => cases h
  | case2 depth done current u us hopen ih => exact ih h (hmore u hmem)
  | case3 done current u us hopen hclose =>
    cases h
    obtain ⟨a, ha, hta⟩ := hmem
    exact ⟨trimLayout a, List.mem_map_of_mem ha, mem_trimLayout ht hta⟩
  | case4 depth done current u us hopen hclose hdepth ih => exact ih h (hmore u hmem)
  | case5 depth done current u us hopen hclose hcomma ih =>
    exact ih h (hmem.imp fun a ha => ⟨List.mem_append_left _ ha.1, ha.2⟩)
  | case6 depth done current u us hopen hclose hcomma ih => exact ih h (hmore _ hmem)

/-- An argument list without marks is found in the same place when marks are removed. -/
theorem read_erased (h : read named variadic depth done current tokens = some list)
    (hplain : ∀ a ∈ list.arguments, Plain a) :
    read named variadic depth done current (erased tokens) =
      some { list with rest := erased list.rest } := by
  fun_induction read named variadic depth done current tokens with
  | case1 => cases h
  | case2 depth done current t ts hopen ih =>
    rw [erased_cons_of_ne (kind_ne_of_isPunctuator hopen (by decide)), read, if_pos hopen, ih h]
  | case3 done current t ts hopen hclose =>
    cases h
    rw [erased_cons_of_ne (kind_ne_of_isPunctuator hclose (by decide)), read, if_neg hopen, if_pos hclose,
      if_pos rfl]
  | case4 depth done current t ts hopen hclose hdepth ih =>
    rw [erased_cons_of_ne (kind_ne_of_isPunctuator hclose (by decide)), read, if_neg hopen, if_pos hclose,
      if_neg hdepth, ih h]
  | case5 depth done current t ts hopen hclose hcomma ih =>
    have ht : t.isPunctuator "," = true :=
      (Bool.and_eq_true_iff.mp (Bool.and_eq_true_iff.mp hcomma).1).1
    rw [erased_cons_of_ne (kind_ne_of_isPunctuator ht (by decide)), read, if_neg hopen, if_neg hclose,
      if_pos hcomma, ih h]
  | case6 depth done current t ts hopen hclose hcomma ih =>
    have ht : t.kind ≠ .placemarker := by
      intro hkind
      have hlayout : t.isLayout = false := by
        rw [Token.isLayout, hkind]
        rfl
      have hsame : t.withoutNewline = t := if_neg (by rw [hkind]; decide)
      rw [hsame] at h
      obtain ⟨a, ha, hta⟩ := mem_read h hlayout
        ⟨_, List.mem_append_right _ (List.mem_singleton_self _), List.mem_append_right _
          (List.mem_singleton_self _)⟩
      exact hplain a ha t hta hkind
    rw [erased_cons_of_ne ht, read, if_neg hopen, if_neg hclose, if_neg hcomma, ih h]

/-- An argument list that does not end does not end when marks are removed. -/
theorem read_erased_none {done' : List (List Token)} {current' : List Token}
    (hlength : done'.length = done.length)
    (h : read named variadic depth done current tokens = none) :
    read named variadic depth done' current' (erased tokens) = none := by
  fun_induction read named variadic depth done current tokens generalizing done' current' with
  | case1 => rfl
  | case2 depth done current t ts hopen ih =>
    rw [erased_cons_of_ne (kind_ne_of_isPunctuator hopen (by decide)), read, if_pos hopen, ih hlength h]
  | case3 done current t ts hopen hclose => cases h
  | case4 depth done current t ts hopen hclose hdepth ih =>
    rw [erased_cons_of_ne (kind_ne_of_isPunctuator hclose (by decide)), read, if_neg hopen, if_pos hclose,
      if_neg hdepth, ih hlength h]
  | case5 depth done current t ts hopen hclose hcomma ih =>
    have ht : t.isPunctuator "," = true :=
      (Bool.and_eq_true_iff.mp (Bool.and_eq_true_iff.mp hcomma).1).1
    rw [erased_cons_of_ne (kind_ne_of_isPunctuator ht (by decide)), read, if_neg hopen, if_neg hclose,
      hlength, if_pos hcomma, ih (by simp [hlength]) h]
  | case6 depth done current t ts hopen hclose hcomma ih =>
    by_cases ht : t.kind = .placemarker
    · rw [erased_cons_of_eq ht, ih hlength h]
    · rw [erased_cons_of_ne ht, read, if_neg hopen, if_neg hclose, hlength, if_neg hcomma,
        ih hlength h]

/-- Arguments are found without layout at their ends. -/
theorem exists_trimLayout (h : read named variadic depth done current tokens = some list) :
    ∀ a ∈ list.arguments, ∃ b, a = trimLayout b := by
  fun_induction read named variadic depth done current tokens with
  | case1 => cases h
  | case3 done current t ts hopen hclose =>
    cases h
    intro a ha
    obtain ⟨b, -, rfl⟩ := List.mem_map.mp ha
    exact ⟨b, rfl⟩
  | case2 _ _ _ _ _ _ ih => exact ih h
  | case4 _ _ _ _ _ _ _ _ ih => exact ih h
  | case5 _ _ _ _ _ _ _ _ ih => exact ih h
  | case6 _ _ _ _ _ _ _ _ ih => exact ih h

end ArgumentList

theorem head_trimLayout : ∀ t ∈ (trimLayout tokens).head?, t.isLayout = false := by
  intro t ht
  have hprefix : trimLayout tokens <+: skipLayout tokens := by
    have hsuffix := List.dropWhile_suffix Token.isLayout (l := (skipLayout tokens).reverse)
    have hreversed := List.reverse_prefix.mpr hsuffix
    rwa [List.reverse_reverse] at hreversed
  obtain ⟨more, hmore⟩ := hprefix
  have hhead : t ∈ (skipLayout tokens).head? := by
    rw [← hmore, List.head?_append, Option.mem_def.mp ht]
    rfl
  exact head?_dropWhile_eq_false hhead

end

/-! ## A turn in front of tokens without marks -/

/-- Whether no mark stands between a name that `d` may replace, in front of `rest`, and the `)` of its
arguments. -/
structure Definition.Unmarked (d : Definition) (rest : List Token) : Prop where
  opens : opensArguments (erased rest) = opensArguments rest
  arguments : opensArguments rest = true → ∀ list ∈
    ArgumentList.read d.parameters.length d.isVariadic 0 [] [] (skipLayout rest).tail,
      ∀ a ∈ list.arguments, Plain a

/-- An invocation with the marks removed from the tokens that follow it. -/
def Invocation.erased (i : Invocation) : Invocation := { i with rest := CPreprocessor.erased i.rest }

/-- A turn with the marks removed from the tokens that follow. -/
def Turn.erased : Turn → Turn
  | emit t => emit t
  | invoke i => invoke i.erased

namespace Expander

variable {e : Expander} {t : Token} {rest : List Token} {d : Definition} {i : Invocation}

/-- Whether no mark that follows a token makes a difference to its turn. -/
def Unmarked (e : Expander) (t : Token) (rest : List Token) : Prop :=
  ∀ d ∈ e.definition? t, t.text ∉ t.hide → d.isFunction = true → d.Unmarked rest

theorem call_erased (h : d.Unmarked rest) (hopens : opensArguments rest = true) :
    call d t (erased rest) = (call d t rest).map Invocation.erased := by
  have htail : (skipLayout (erased rest)).tail = erased (skipLayout rest).tail := by
    rw [skipLayout_erased hopens]
    cases hskip : skipLayout rest with
    | nil => rfl
    | cons p after =>
      rw [opensArguments, hskip] at hopens
      rw [erased_cons_of_ne (kind_ne_of_isPunctuator hopens nofun)]
      rfl
  unfold call
  rw [htail]
  cases hread : ArgumentList.read d.parameters.length d.isVariadic 0 [] [] (skipLayout rest).tail with
  | none =>
    rw [ArgumentList.read_erased_none rfl hread]
    rfl
  | some list =>
    rw [ArgumentList.read_erased hread (h.arguments hopens list hread)]
    dsimp only
    cases ArgumentList.supply d list.arguments with
    | error fault => rfl
    | ok arguments => rfl

theorem turn_erased (h : e.Unmarked t rest) :
    e.turn t (erased rest) = (e.turn t rest).map Turn.erased := by
  unfold turn
  cases hdefinition : e.definition? t with
  | none => rfl
  | some d =>
    dsimp only
    by_cases hhidden : t.text ∈ t.hide
    · rw [if_pos hhidden, if_pos hhidden]
      rfl
    rw [if_neg hhidden, if_neg hhidden]
    split
    · rfl
    cases hshape : d.isFunction with
    | false => rfl
    | true =>
      have hd := h d hdefinition hhidden hshape
      rw [hd.opens]
      rw [Bool.not_true, if_neg Bool.false_ne_true, if_neg Bool.false_ne_true]
      by_cases hopens : opensArguments rest = true
      · rw [if_pos hopens, if_pos hopens, call_erased hd hopens]
        cases call d t rest <;> rfl
      · rw [if_neg hopens, if_neg hopens]
        rfl

/-- The arguments of an invocation hold no marks, and begin with no blank. -/
theorem arguments_of_turn (h : e.Unmarked t rest) (hturn : e.turn t rest = .ok (.invoke i)) :
    ∀ a ∈ i.arguments, Plain a ∧ ∀ t ∈ a.head?, t.kind ≠ .whitespace := by
  unfold turn at hturn
  split at hturn
  · cases hturn
  rename_i d hdefinition
  split at hturn
  · cases hturn
  rename_i hhidden
  split at hturn
  · cases hturn
  split at hturn
  · cases hturn
    exact List.forall_mem_nil _
  rename_i hshape
  split at hturn
  · rename_i hopens
    have hd := h d hdefinition hhidden (by simpa using hshape)
    obtain ⟨i, hcall, heq⟩ := map_eq_ok_iff.mp hturn
    cases heq
    unfold call at hcall
    split at hcall
    · cases hcall
    rename_i list hread
    split at hcall
    · cases hcall
    rename_i arguments hsupply
    cases hcall
    intro a ha
    rcases ArgumentList.mem_of_supply hsupply a ha with ha | rfl
    · obtain ⟨b, rfl⟩ := ArgumentList.exists_trimLayout hread a ha
      refine ⟨hd.arguments hopens list hread _ ha, fun t ht hkind => ?_⟩
      have hlayout := head_trimLayout t ht
      rw [Token.isLayout, hkind] at hlayout
      cases hlayout
    · exact ⟨List.forall_mem_nil _, by rintro t ⟨⟩⟩
  · cases hturn

theorem turn_placemarker (ht : t.kind = .placemarker) : e.turn t rest = .ok (.emit t) := by
  have hnone : e.definition? t = none := by
    rw [definition?, Token.isIdentifier, ht]
    rfl
  rw [turn, hnone]

theorem kind_ne_of_turn (h : e.turn t rest ≠ .ok (.emit t)) : t.kind ≠ .placemarker :=
  fun ht => h (turn_placemarker ht)

theorem kind_of_emit {u : Token} (h : e.turn t rest = .ok (.emit u)) (ht : t.kind ≠ .placemarker) :
    u.kind ≠ .placemarker := by
  unfold turn at h
  split at h
  · cases h
    exact ht
  split at h
  · cases h
    exact ht
  split at h
  · cases h
    rw [dynamicValue]
    split <;> exact nofun
  split at h
  · cases h
  split at h
  · obtain ⟨i, -, heq⟩ := map_eq_ok_iff.mp h
    cases heq
  · cases h
    exact ht

/-! ## The expansion that removes marks -/

/-- The run over pending tokens that removes marks from each replacement before it is read again. -/
def runErasing (e : Expander) (depth : Nat) (done : Progress) (pending : List Token) :
    Except ExpansionError Progress :=
  match pending with
  | [] => .ok done
  | t :: rest =>
    match _hturn : e.turn t rest with
    | .error error => .error error
    | .ok (.emit u) => e.runErasing depth (done.emit u) rest
    | .ok (.invoke i) =>
      if e.exceeds depth i.hide.size then .error (e.tooDeep i)
      else
        let inner := i.expandedIndices.mapM fun index =>
          if e.exceeds (depth + 1) 0 then .error (e.tooDeep i)
          else e.runErasing (depth + 1) {} (i.argument index)
        match inner with
        | .error error => .error error
        | .ok inner =>
          match _hbody : i.replacement (i.expandedIndices.zip (inner.map Progress.tokens)) with
          | .error error => .error error
          | .ok body =>
            e.runErasing depth (done.invoke i.site.text inner) (erased body ++ i.rest)
termination_by (⟨e.table.names, hides pending⟩ : Workload)
decreasing_by
  · exact ⟨trivial, .drop (List.Sublist.refl _)⟩
  · exact ⟨trivial, (found_of_turn _hturn).argument_descends index⟩
  · exact ⟨trivial, (found_of_turn _hturn).descends fun b hb =>
      Invocation.hide_of_replacement _hbody b ((List.filter_sublist.map _).subset hb)⟩

/-- Expands all invocations in a list of tokens, where no mark outlives the `##` of its replacement. -/
def expandErasing (e : Expander) (tokens : List Token) : Except ExpansionError Expansion :=
  (e.runErasing 0 {} (tokens.filter fun t => t.kind ≠ .endOfInput)).map fun p =>
    { tokens := p.tokens.filter fun t => t.kind ≠ .placemarker, trace := p.trace.reverse }

variable {depth : Nat} {done : Progress}

/-- The expansions of some arguments of an invocation, without marks, up to the first that fails. -/
def runErasingArguments (e : Expander) (depth : Nat) (i : Invocation) (indices : List Nat) :
    Except ExpansionError (List Progress) :=
  indices.mapM fun index =>
    if e.exceeds (depth + 1) 0 then .error (e.tooDeep i)
    else e.runErasing (depth + 1) {} (i.argument index)

theorem runErasing_nil : e.runErasing depth done [] = .ok done := by rw [runErasing]

theorem runErasing_of_error {error : ExpansionError} (h : e.turn t rest = .error error) :
    e.runErasing depth done (t :: rest) = .error error := by
  rw [runErasing]
  split <;> simp_all

theorem runErasing_of_emit {u : Token} (h : e.turn t rest = .ok (.emit u)) :
    e.runErasing depth done (t :: rest) = e.runErasing depth (done.emit u) rest := by
  rw [runErasing]
  split <;> simp_all

theorem runErasing_of_invoke (h : e.turn t rest = .ok (.invoke i)) :
    e.runErasing depth done (t :: rest) =
      if e.exceeds depth i.hide.size then .error (e.tooDeep i)
      else
        match runErasingArguments e depth i i.expandedIndices with
        | .error error => .error error
        | .ok inner =>
          match i.replacement (i.expandedIndices.zip (inner.map Progress.tokens)) with
          | .error error => .error error
          | .ok body =>
            e.runErasing depth (done.invoke i.site.text inner) (erased body ++ i.rest) := by
  rw [runErasing]
  split
  · simp_all
  · simp_all
  · rename_i j hj
    obtain rfl : i = j := by simpa [hj] using h.symm
    split
    · rfl
    change (match runErasingArguments e depth i i.expandedIndices with
      | .error error => _
      | .ok inner => _) = _
    cases runErasingArguments e depth i i.expandedIndices with
    | error error => rfl
    | ok inner =>
      dsimp only
      split <;> simp_all

theorem runErasing_of_body {inner : List Progress} {body : List Token}
    (h : e.turn t rest = .ok (.invoke i)) (hdeep : e.exceeds depth i.hide.size = false)
    (hinner : runErasingArguments e depth i i.expandedIndices = .ok inner)
    (hbody : i.replacement (i.expandedIndices.zip (inner.map Progress.tokens)) = .ok body) :
    e.runErasing depth done (t :: rest) =
      e.runErasing depth (done.invoke i.site.text inner) (erased body ++ i.rest) := by
  rw [runErasing_of_invoke h, hdeep, if_neg Bool.false_ne_true, hinner]
  dsimp only
  rw [hbody]

end Expander

/-! ## Where marks make no difference -/

/-- Whether a piece is a `##` that takes a comma away if what it joins to it is empty. -/
def Piece.takesComma : Piece → Bool
  | .joinRest _ => true
  | _ => false

/-- Whether no mark makes a difference in the next step: none stands in the argument list that a name
takes or before it, and none is left over in an expanded argument where a `##` may take a comma away. -/
def Machine.Clear (e : Expander) : Machine → Prop
  | .working _ _ (t :: rest) _ => e.Unmarked t rest
  | .working _ done [] (w :: _) =>
    w.invocation.definition.template.any Piece.takesComma = true → Plain done.output
  | _ => True

instance (tokens : List Token) : Decidable (Plain tokens) :=
  inferInstanceAs (Decidable (∀ t ∈ tokens, t.kind ≠ .placemarker))

instance (d : Definition) (rest : List Token) : Decidable (d.Unmarked rest) :=
  decidable_of_iff
    (opensArguments (erased rest) = opensArguments rest ∧
      (opensArguments rest = true → ∀ list ∈
        ArgumentList.read d.parameters.length d.isVariadic 0 [] [] (skipLayout rest).tail,
          ∀ a ∈ list.arguments, Plain a))
    ⟨fun h => ⟨h.1, h.2⟩, fun h => ⟨h.opens, h.arguments⟩⟩

instance (e : Expander) (t : Token) (rest : List Token) : Decidable (e.Unmarked t rest) :=
  inferInstanceAs (Decidable (∀ d ∈ e.definition? t, _ → _ → _))

instance (e : Expander) : DecidablePred (Machine.Clear e)
  | .halted _ => isTrue trivial
  | .working _ _ [] [] => isTrue trivial
  | .working _ done [] (w :: _) =>
    inferInstanceAs (Decidable (w.invocation.definition.template.any Piece.takesComma = true →
      Plain done.output))
  | .working _ _ (t :: rest) _ => inferInstanceAs (Decidable (e.Unmarked t rest))

/-- What an expansion has produced, without marks. -/
def Progress.erased (p : Progress) : Progress := { p with output := CPreprocessor.erased p.output }

theorem Progress.tokens_erased (p : Progress) :
    p.erased.tokens = CPreprocessor.erased p.tokens := (erased_reverse p.output).symm

theorem Progress.invoke_erased (p : Progress) (name : String) (inner : List Progress) :
    p.erased.invoke name (inner.map Progress.erased) = (p.invoke name inner).erased := by
  rw [invoke, invoke, List.map_map]
  rfl

theorem erased_map_hideBy (hide : HideSet) (tokens : List Token) :
    erased (tokens.map (·.hideBy hide)) = (erased tokens).map (·.hideBy hide) := by
  rw [erased, List.filter_map]
  rfl

namespace Invocation

variable {i : Invocation} {inner : List Progress}

theorem expanded_erased (i : Invocation) (inner : List Progress) (index : Nat) :
    (i.filling (inner.map Progress.erased)).expanded index =
      CPreprocessor.erased ((i.filling inner).expanded index) := by
  have hzip : i.expandedIndices.zip ((inner.map Progress.erased).map Progress.tokens) =
      (i.expandedIndices.zip (inner.map Progress.tokens)).map (Prod.map id CPreprocessor.erased) := by
    rw [← List.zip_map_right, List.map_map, List.map_map]
    exact congrArg _ (List.map_congr_left fun p _ => p.tokens_erased)
  rw [filling, filling, hzip]
  dsimp only
  rw [lookup_map_snd]
  cases (i.expandedIndices.zip (inner.map Progress.tokens)).lookup index <;> rfl

theorem plain_expanded (h : ∀ p ∈ inner, Plain p.output) (index : Nat) :
    Plain ((i.filling inner).expanded index) := by
  have hentries : ∀ tokens,
      (i.expandedIndices.zip (inner.map Progress.tokens)).lookup index = some tokens →
        Plain tokens := by
    intro tokens hlookup
    obtain ⟨before, after, heq, -⟩ := List.lookup_eq_some_iff.mp hlookup
    have hmem : (index, tokens) ∈ i.expandedIndices.zip (inner.map Progress.tokens) :=
      heq ▸ List.mem_append_right _ List.mem_cons_self
    obtain ⟨p, hp, rfl⟩ := List.mem_map.mp (List.of_mem_zip hmem).2
    exact fun t ht => h p hp t (List.mem_reverse.mp ht)
  rw [filling]
  dsimp only
  cases hlookup : (i.expandedIndices.zip (inner.map Progress.tokens)).lookup index with
  | none => exact nofun
  | some tokens => exact hentries tokens hlookup

/-- Marks in expanded arguments make no difference to a replacement but that they are in it. -/
theorem replacement_erased (htrimmed : ∀ a ∈ i.arguments, ∀ t ∈ a.head?, t.kind ≠ .whitespace)
    (hrest : i.definition.template.any Piece.takesComma = true → ∀ p ∈ inner, Plain p.output) :
    (i.replacement (i.expandedIndices.zip ((inner.map Progress.erased).map Progress.tokens))).map
      CPreprocessor.erased =
      (i.replacement (i.expandedIndices.zip (inner.map Progress.tokens))).map
        CPreprocessor.erased := by
  have hhead : ∀ index, ∀ t ∈ (i.argument index).head?, t.kind ≠ .whitespace := by
    intro index
    rw [argument]
    cases hargument : i.arguments[index]? with
    | none => exact nofun
    | some a => exact htrimmed a (List.mem_of_getElem? hargument)
  have hfill : ((i.filling (inner.map Progress.erased)).fill i.definition.template).map
      CPreprocessor.erased =
        ((i.filling inner).fill i.definition.template).map CPreprocessor.erased := by
    refine Filling.erased_fill rfl rfl hhead (fun index => ?_) fun index hindex => funext fun own => ?_
    · rw [expanded_erased, (plain_erased _).erased]
    · have hcomma : i.definition.template.any Piece.takesComma = true :=
        List.any_eq_true.mpr ⟨_, hindex, rfl⟩
      rw [expanded_erased, (plain_expanded (hrest hcomma) own).erased]
  rw [replacement_eq, replacement_eq]
  cases hfilled : (i.filling inner).fill i.definition.template with
  | error fault =>
    rw [hfilled] at hfill
    rw [map_eq_error_iff.mp hfill]
  | ok tokens =>
    rw [hfilled] at hfill
    obtain ⟨tokens', hfilled', htokens⟩ := map_eq_ok_iff.mp hfill
    rw [hfilled']
    dsimp only [Except.map]
    rw [erased_map_hideBy, erased_map_hideBy, htokens]

end Invocation

/-! ## The two expansions -/

namespace Expander

open Machine

variable {e : Expander} {t : Token} {rest : List Token} {i : Invocation} {depth : Nat}

/-- The expansion of the arguments of an invocation, as long as no mark makes a difference. -/
theorem runErasingArguments_eq (waiting : List Suspension) (done : Progress)
    (hplain : ∀ a ∈ i.arguments, Plain a)
    (hrun : ∀ index waiting,
      (∀ m, Reaches e (.working (depth + 1) {} (i.argument index) waiting) m → m.Clear e) →
        e.runErasing (depth + 1) (Progress.erased {}) (erased (i.argument index)) =
          (e.run (depth + 1) {} (i.argument index)).map Progress.erased)
    (finished : List Progress) (remaining : List Nat)
    (hclear : ∀ m, Reaches e (proceed e ⟨depth, done, i, finished, remaining⟩ waiting) m →
      m.Clear e) :
    runErasingArguments e depth i remaining =
      (runArguments e depth i remaining).map (List.map Progress.erased) ∧
    ∀ inner, runArguments e depth i remaining = .ok inner →
      i.definition.template.any Piece.takesComma = true → ∀ p ∈ inner, Plain p.output := by
  induction remaining generalizing finished with
  | nil =>
    refine ⟨rfl, ?_⟩
    rintro inner ⟨⟩
    exact fun _ => List.forall_mem_nil _
  | cons index others ih =>
    rw [runErasingArguments, mapM_cons_except, ← runErasingArguments, runArguments, mapM_cons_except,
      ← runArguments]
    by_cases hdeep : e.exceeds (depth + 1) 0 = true
    · rw [if_pos hdeep, if_pos hdeep]
      exact ⟨rfl, by rintro inner ⟨⟩⟩
    rw [if_neg hdeep, if_neg hdeep]
    have hstart : proceed e ⟨depth, done, i, finished, index :: others⟩ waiting =
        .working (depth + 1) {} (i.argument index) (⟨depth, done, i, finished, others⟩ :: waiting) :=
      if_neg hdeep
    rw [hstart] at hclear
    have hargument : erased (i.argument index) = i.argument index := by
      rw [Invocation.argument]
      cases hfound : i.arguments[index]? with
      | none => rfl
      | some a => exact (hplain a (List.mem_of_getElem? hfound)).erased
    have hfirst := hrun index _ hclear
    have hending := reaches_ending e (depth + 1) {} (i.argument index)
      (⟨depth, done, i, finished, others⟩ :: waiting)
    rw [hargument] at hfirst
    cases hresult : e.run (depth + 1) {} (i.argument index) with
    | error error =>
      rw [hresult] at hfirst
      refine ⟨?_, by rintro inner ⟨⟩⟩
      rw [show e.runErasing (depth + 1) {} (i.argument index) = _ from hfirst]
      rfl
    | ok p =>
      rw [hresult] at hfirst hending
      have hp : i.definition.template.any Piece.takesComma = true → Plain p.output :=
        hclear _ hending
      have hnext : Reaches e (.working (depth + 1) {} (i.argument index)
          (⟨depth, done, i, finished, others⟩ :: waiting))
          (proceed e ⟨depth, done, i, finished ++ [p], others⟩ waiting) :=
        hending.trans (reaches_settle _ (.ok p))
      obtain ⟨hothers, hinner⟩ := ih (finished ++ [p]) fun m hm => hclear m (hnext.trans hm)
      rw [show e.runErasing (depth + 1) {} (i.argument index) = _ from hfirst, hothers]
      constructor
      · cases runArguments e depth i others <;> rfl
      · intro inner hall
        obtain ⟨later, hlater, rfl⟩ := map_eq_ok_iff.mp hall
        exact fun hcomma =>
          List.forall_mem_cons.mpr ⟨hp hcomma, hinner later hlater hcomma⟩

/-- An invocation in front of tokens without marks. -/
theorem runErasing_of_invoke_erased {done : Progress} (h : e.Unmarked t rest)
    (hturn : e.turn t rest = .ok (.invoke i)) (hdeep : e.exceeds depth i.hide.size = false) :
    e.runErasing depth done.erased (erased (t :: rest)) =
      match runErasingArguments e depth i i.expandedIndices with
      | .error error => .error error
      | .ok inner =>
        match i.replacement (i.expandedIndices.zip (inner.map Progress.tokens)) with
        | .error error => .error error
        | .ok body =>
          e.runErasing depth (done.erased.invoke i.site.text inner)
            (erased body ++ erased i.rest) := by
  have ht := kind_ne_of_turn (by rw [hturn]; exact nofun)
  have hturn' : e.turn t (erased rest) = .ok (.invoke i.erased) := by
    rw [turn_erased h, hturn]
    rfl
  have hroom : e.exceeds depth i.erased.hide.size = false := hdeep
  rw [erased_cons_of_ne ht, runErasing_of_invoke hturn', hroom, if_neg Bool.false_ne_true]
  rfl

theorem reaches_proceed (done : Progress) (waiting : List Suspension)
    (hturn : e.turn t rest = .ok (.invoke i)) (hdeep : e.exceeds depth i.hide.size = false) :
    Reaches e (.working depth done (t :: rest) waiting)
      (proceed e ⟨depth, done, i, [], i.expandedIndices⟩ waiting) := by
  refine .head ?_
  rw [step, hturn]
  dsimp only
  rw [hdeep]
  exact .refl

/-- A run in which no mark makes a difference comes to what the run without marks does, but for
marks. -/
theorem runErasing_eq (e : Expander) (depth : Nat) (done : Progress) (pending : List Token) :
    ∀ waiting, (∀ m, Reaches e (.working depth done pending waiting) m → m.Clear e) →
      e.runErasing depth done.erased (erased pending) =
        (e.run depth done pending).map Progress.erased := by
  induction depth, done, pending using run_induction with
  | nil depth done => exact fun waiting _ => runErasing_nil
  | failed depth done t rest error hturn =>
    intro waiting hclear
    have ht := kind_ne_of_turn (by rw [hturn]; rintro ⟨⟩)
    have hturn' : e.turn t (erased rest) = .error error := by
      rw [turn_erased (hclear _ .refl), hturn]
      rfl
    rw [erased_cons_of_ne ht, runErasing_of_error hturn']
    rfl
  | emit depth done t rest u hturn ih =>
    intro waiting hclear
    have hnext : Reaches e (.working depth done (t :: rest) waiting)
        (.working depth (done.emit u) rest waiting) := by
      refine .head ?_
      rw [step, hturn]
      exact .refl
    have ih := ih waiting fun m hm => hclear m (hnext.trans hm)
    by_cases ht : t.kind = .placemarker
    · rw [turn_placemarker ht] at hturn
      cases hturn
      rw [erased_cons_of_eq ht, ← ih, Progress.erased, Progress.erased, Progress.emit,
        erased_cons_of_eq ht]
    · have hturn' : e.turn t (erased rest) = .ok (.emit u) := by
        rw [turn_erased (hclear _ .refl), hturn]
        rfl
      rw [erased_cons_of_ne ht, runErasing_of_emit hturn', ← ih, Progress.erased, Progress.erased,
        Progress.emit, Progress.emit, erased_cons_of_ne (kind_of_emit hturn ht)]
  | deep depth done t rest i hturn hdeep =>
    intro waiting hclear
    have ht := kind_ne_of_turn (by rw [hturn]; rintro ⟨⟩)
    have hturn' : e.turn t (erased rest) = .ok (.invoke i.erased) := by
      rw [turn_erased (hclear _ .refl), hturn]
      rfl
    have hdeep' : e.exceeds depth i.erased.hide.size = true := hdeep
    rw [erased_cons_of_ne ht, runErasing_of_invoke hturn', if_pos hdeep']
    rfl
  | argument depth done t rest i error hturn hdeep hinner ih =>
    intro waiting hclear
    have hunmarked : e.Unmarked t rest := hclear _ .refl
    have harguments := arguments_of_turn hunmarked hturn
    obtain ⟨heq, -⟩ := runErasingArguments_eq waiting done (fun a ha => (harguments a ha).1) ih []
      i.expandedIndices fun m hm => hclear m ((reaches_proceed done waiting hturn hdeep).trans hm)
    rw [runErasing_of_invoke_erased hunmarked hturn hdeep, heq, hinner]
    rfl
  | replacement depth done t rest i inner error hturn hdeep hinner hbody ih =>
    intro waiting hclear
    have hunmarked : e.Unmarked t rest := hclear _ .refl
    have harguments := arguments_of_turn hunmarked hturn
    obtain ⟨heq, hplain⟩ := runErasingArguments_eq waiting done (fun a ha => (harguments a ha).1) ih
      [] i.expandedIndices fun m hm => hclear m ((reaches_proceed done waiting hturn hdeep).trans hm)
    have hreplacement := i.replacement_erased (fun a ha => (harguments a ha).2) (hplain inner hinner)
    rw [hbody] at hreplacement
    rw [runErasing_of_invoke_erased hunmarked hturn hdeep, heq, hinner]
    dsimp only [Except.map]
    rw [map_eq_error_iff.mp hreplacement]
  | invoke depth done t rest i inner body hturn hdeep hinner hbody iha ih =>
    intro waiting hclear
    have hunmarked : e.Unmarked t rest := hclear _ .refl
    have harguments := arguments_of_turn hunmarked hturn
    have hproceed := reaches_proceed done waiting hturn hdeep
    obtain ⟨heq, hplain⟩ := runErasingArguments_eq waiting done (fun a ha => (harguments a ha).1) iha
      [] i.expandedIndices fun m hm => hclear m (hproceed.trans hm)
    have hreplacement := i.replacement_erased (fun a ha => (harguments a ha).2) (hplain inner hinner)
    rw [hbody] at hreplacement
    obtain ⟨body', hbody', hsame⟩ := map_eq_ok_iff.mp hreplacement
    have hnext : Reaches e (.working depth done (t :: rest) waiting)
        (.working depth (done.invoke i.site.text inner) (body ++ i.rest) waiting) := by
      have hreached := reaches_arguments waiting (fun index => reaches_run e (depth + 1) {}
        (i.argument index)) done [] i.expandedIndices
      rw [hinner] at hreached
      refine (hproceed.trans hreached).trans ?_
      simp only [proceed, List.nil_append, hbody]
      exact .refl
    have ih := ih waiting fun m hm => hclear m (hnext.trans hm)
    rw [runErasing_of_invoke_erased hunmarked hturn hdeep, heq, hinner]
    dsimp only [Except.map]
    rw [hbody']
    dsimp only
    rw [hsame, ← erased_append, Progress.invoke_erased]
    exact ih

/-- Expansion gives what it would give if no mark of an empty operand outlived the `##` of its
replacement, as long as no mark makes a difference in any state on the way. -/
theorem expand_eq_expandErasing (e : Expander) (tokens : List Token)
    (htokens : ∀ t ∈ tokens, t.kind ≠ .placemarker)
    (hclear : ∀ n, ((step e)^[n] (start tokens)).Clear e) :
    e.expand tokens = e.expandErasing tokens := by
  have hplain : Plain (tokens.filter fun t => t.kind ≠ .endOfInput) := fun t ht =>
    htokens t (List.mem_filter.mp ht).1
  have hreached : ∀ m,
      Reaches e (.working 0 {} (tokens.filter fun t => t.kind ≠ .endOfInput) []) m → m.Clear e := by
    rintro _ ⟨n, rfl⟩
    exact hclear n
  have hrun := runErasing_eq e 0 {} (tokens.filter fun t => t.kind ≠ .endOfInput) [] hreached
  rw [hplain.erased, show Progress.erased {} = {} from rfl] at hrun
  rw [expand, expandErasing, hrun]
  cases e.run 0 {} (tokens.filter fun t => t.kind ≠ .endOfInput) with
  | error error => rfl
  | ok p =>
    dsimp only [Except.map]
    rw [p.tokens_erased, ← erased, ← erased, (plain_erased _).erased]
    rfl

end Expander

/-! ## Marks that are left over -/

/-- The macros that `#define wrap(x) x` and `#define pair(a,b) a##b;` define. -/
def wrapTable : Table :=
  Table.define
    (Table.define ∅ { name := "wrap", shape := .function ["x"] false, replacement := [wordAt "x" 9] })
    { name := "pair", shape := .function ["a", "b"] false
      replacement := [wordAt "a" 11, markAt "##" 12, wordAt "b" 14, markAt ";" 15] }

/-- The tokens of `wrap(pair(,))`. -/
def emptyPair : List Token :=
  [wordAt "wrap" 1, markAt "(" 5, wordAt "pair" 6, markAt "(" 10, markAt "," 11, markAt ")" 12,
    markAt ")" 13]

theorem Machine.clear_of_halted {e : Expander} {m : Machine} {k : Nat}
    {outcome : Except ExpansionError Progress} (hhalted : (Machine.step e)^[k] m = .halted outcome)
    (hbefore : ∀ n < k, ((Machine.step e)^[n] m).Clear e) (n : Nat) :
    ((Machine.step e)^[n] m).Clear e := by
  rcases Nat.lt_or_ge n k with hlt | hge
  · exact hbefore n hlt
  · rw [← Nat.sub_add_cancel hge, Function.iterate_add_apply, hhalted, iterate_step_halted]
    trivial

/-- The hide set of what `pair` leaves within `wrap`. -/
def wrapped : HideSet := (HideSet.insert ∅ "pair").union (HideSet.insert ∅ "wrap")

/-- The mark that `pair(,)` leaves in the argument of `wrap` makes no difference. -/
theorem Expander.expand_eq_expandErasing_pair :
    (∀ t ∈ emptyPair, t.kind ≠ .placemarker) ∧
    (∀ n, ((Machine.step { table := wrapTable })^[n] (Machine.start emptyPair)).Clear
      { table := wrapTable }) ∧
    Expander.expandErasing { table := wrapTable } emptyPair =
      .ok ⟨[{ markAt ";" 6 with hide := wrapped }], ["wrap", "pair"]⟩ := by
  have htokens : ∀ t ∈ emptyPair, t.kind ≠ .placemarker := by decide
  have hhalted : (Machine.step { table := wrapTable })^[8] (Machine.start emptyPair) =
      .halted (.ok ⟨[{ markAt ";" 6 with hide := wrapped },
        { Token.placemarker (wordAt "pair" 6).location with hide := wrapped }], ["pair", "wrap"]⟩) := by
    cbv
  have hbefore : (List.range 8).all (fun n => decide
      (((Machine.step { table := wrapTable })^[n] (Machine.start emptyPair)).Clear
        { table := wrapTable })) = true := by
    cbv
  have hclear := Machine.clear_of_halted hhalted fun n hn =>
    of_decide_eq_true (List.all_eq_true.mp hbefore n (List.mem_range.mpr hn))
  have heq := Expander.expand_eq_expandErasing { table := wrapTable } emptyPair htokens hclear
  rw [Machine.expand_of_halted 8 hhalted] at heq
  exact ⟨htokens, hclear, heq.symm⟩

/-- The macros that `#define none() ;` and `#define glue(a,b) none(a##b)` define. -/
def glueTable : Table :=
  Table.define
    (Table.define ∅ { name := "none", shape := .function [] false, replacement := [markAt ";" 8] })
    { name := "glue", shape := .function ["a", "b"] false
      replacement := [wordAt "none" 11, markAt "(" 15, wordAt "a" 16, markAt "##" 17, wordAt "b" 19,
        markAt ")" 20] }

/-- The tokens of `glue(,)`. -/
def emptyGlue : List Token := [wordAt "glue" 1, markAt "(" 5, markAt "," 6, markAt ")" 7]

/-- The mark that `glue(,)` leaves is an argument too many for `none`, which stands for `;` where
nothing is left. -/
theorem Expander.expand_ne_expandErasing :
    (∀ t ∈ emptyGlue, t.kind ≠ .placemarker) ∧
    Expander.expand { table := glueTable } emptyGlue =
      .error ⟨"none", .argumentCount 0 1 false, (wordAt "glue" 1).location⟩ ∧
    Expander.expandErasing { table := glueTable } emptyGlue =
      .ok ⟨[{ markAt ";" 1 with hide := (HideSet.insert ∅ "glue").insert "none" }],
        ["glue", "none"]⟩ := by
  have hhalted : (Machine.step { table := glueTable })^[2] (Machine.start emptyGlue) =
      .halted (.error ⟨"none", .argumentCount 0 1 false, (wordAt "glue" 1).location⟩) := by cbv
  have hglue : Expander.turn { table := glueTable } (wordAt "glue" 1)
      [markAt "(" 5, markAt "," 6, markAt ")" 7] = .ok (.invoke
        { definition := (glueTable.lookup "glue").getD default, site := wordAt "glue" 1
          arguments := [[], []], hide := HideSet.insert ∅ "glue", rest := [] }) := by rfl
  have hnone : Expander.turn { table := glueTable }
      { wordAt "none" 1 with hide := HideSet.insert ∅ "glue" }
      [{ markAt "(" 1 with hide := HideSet.insert ∅ "glue" },
        { markAt ")" 1 with hide := HideSet.insert ∅ "glue" }] = .ok (.invoke
        { definition := (glueTable.lookup "none").getD default
          site := { wordAt "none" 1 with hide := HideSet.insert ∅ "glue" }
          arguments := [], hide := (HideSet.insert ∅ "glue").insert "none", rest := [] }) := by rfl
  have hsemicolon : Expander.turn { table := glueTable }
      { markAt ";" 1 with hide := (HideSet.insert ∅ "glue").insert "none" } [] =
        .ok (.emit { markAt ";" 1 with hide := (HideSet.insert ∅ "glue").insert "none" }) := by rfl
  have hrun : Expander.runErasing { table := glueTable } 0 {} emptyGlue =
      .ok ⟨[{ markAt ";" 1 with hide := (HideSet.insert ∅ "glue").insert "none" }],
        ["none", "glue"]⟩ := by
    have hbody : Expander.runErasing { table := glueTable } 0 {} emptyGlue =
        Expander.runErasing { table := glueTable } 0 ⟨[], ["glue"]⟩
          [{ wordAt "none" 1 with hide := HideSet.insert ∅ "glue" },
            { markAt "(" 1 with hide := HideSet.insert ∅ "glue" },
            { markAt ")" 1 with hide := HideSet.insert ∅ "glue" }] :=
      Expander.runErasing_of_body hglue rfl (by cbv) (by cbv)
    have hreplaced : Expander.runErasing { table := glueTable } 0 ⟨[], ["glue"]⟩
        [{ wordAt "none" 1 with hide := HideSet.insert ∅ "glue" },
          { markAt "(" 1 with hide := HideSet.insert ∅ "glue" },
          { markAt ")" 1 with hide := HideSet.insert ∅ "glue" }] =
        Expander.runErasing { table := glueTable } 0 ⟨[], ["none", "glue"]⟩
          [{ markAt ";" 1 with hide := (HideSet.insert ∅ "glue").insert "none" }] :=
      Expander.runErasing_of_body hnone rfl (by cbv) (by cbv)
    rw [hbody, hreplaced, Expander.runErasing_of_emit hsemicolon, Expander.runErasing_nil]
    rfl
  refine ⟨by decide, Machine.expand_of_halted 2 hhalted, ?_⟩
  have hkept : (emptyGlue.filter fun t => t.kind ≠ .endOfInput) = emptyGlue := by decide
  rw [Expander.expandErasing, hkept, hrun]
  rfl

end CPreprocessor
