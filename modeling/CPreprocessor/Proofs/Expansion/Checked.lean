import Mathlib.Data.List.DropRight
import CPreprocessor.Proofs.Except
import CPreprocessor.Proofs.Expansion.Lasting

/-!
# Checked expansion

`Expander.expandChecked` expands as `Expander.expand` does, but without defaults: it looks up the `(`
that an invocation announced, the last parameter of a variadic macro, the arguments and their
expansions, and stops at the first of them that is not there. All are there, whatever is expanded, if
every variadic macro has a parameter (`Expander.expandChecked_eq`).
-/

namespace CPreprocessor

variable {ε : Type} {t : Token} {tokens rest : List Token} {d : Definition}

/-! ## Argument lists -/

/-- The pending tokens from the one on that opens an argument list, once it is known to come. -/
def openingChecked : List Token → Except (Stop ε) (List Token)
  | [] => .error .outOfRange
  | t :: rest => if t.isLayout then openingChecked rest else .ok (t :: rest)

theorem openingChecked_eq (h : opensArguments rest = true) :
    (openingChecked rest : Except (Stop ε) (List Token)) = .ok (skipLayout rest) := by
  induction rest with
  | nil => cases h
  | cons t rest ih =>
    rw [opensArguments, skipLayout, List.dropWhile_cons] at h
    rw [openingChecked, skipLayout, List.dropWhile_cons]
    split
    · rename_i hlayout
      rw [if_pos hlayout] at h
      exact ih h
    · rfl

theorem ArgumentList.length_of_supply {found arguments : List (List Token)}
    (h : supply d found = .ok arguments) : arguments.length = d.parameters.length := by
  simp only [supply] at h
  split at h
  · rename_i hnone
    cases h
    simp only [Bool.and_eq_true, decide_eq_true_eq] at hnone
    exact hnone.1.1.symm
  split at h
  · rename_i hvariadic
    cases h
    simp only [Bool.and_eq_true, decide_eq_true_eq] at hvariadic
    rw [List.length_append, List.length_singleton, hvariadic.2]
  split at h
  · rename_i hlength
    cases h
    exact hlength
  · cases h

/-- Whether an invocation is by a definition of a table and has an argument for each parameter. -/
structure Invocation.Complete (table : Table) (i : Invocation) : Prop where
  definition : i.definition ∈ table.definitions
  arguments : i.arguments.length = i.definition.parameters.length

/-! ## Templates -/

/-- The argument that a piece is made of. -/
def Piece.index? : Piece → Option Nat
  | .copy _ | .join => none
  | .stringize index | .operand index | .argument index | .joinRest index => some index

namespace Definition

/-- The template of a definition. Where there is a `##`, the last parameter of a variadic macro is
looked up. -/
def templateChecked (d : Definition) : Except (Stop ε) (List Piece) :=
  if d.isVariadic && d.replacement.any (·.isPunctuator "##") then
    (found d.parameters.getLast?).map fun _ => d.template
  else .ok d.template

theorem templateChecked_eq (h : d.isVariadic = true → d.parameters ≠ []) :
    (d.templateChecked : Except (Stop ε) (List Piece)) = .ok d.template := by
  unfold templateChecked
  split
  · rename_i hjoins
    have hvariadic := (Bool.and_eq_true_iff.mp hjoins).1
    rw [List.getLast?_eq_some_getLast (h hvariadic)]
    rfl
  · rfl

-- No source defines such a macro: its `...` would be a parameter.
example : templateChecked { name := "F", shape := .function [] true, replacement :=
    [{ kind := .punctuator, text := "##", location := ⟨"<input>", 1, 17⟩ }] } =
      (.error .outOfRange : Except (Stop ExpansionError) (List Piece)) := rfl

theorem lt_of_indexOf? {name : String} {index : Nat} (h : d.indexOf? name = some index) :
    index < d.parameters.length := by
  rw [indexOf?, List.idxOf?_eq_some_iff] at h
  obtain ⟨hlt, -⟩ := h
  exact hlt

/-- Every piece of a template is made of the argument of some parameter. -/
theorem index_lt_of_mem_pieces {joined : Bool} {piece : Piece} {index : Nat}
    (h : piece ∈ d.pieces joined tokens) (hindex : piece.index? = some index) :
    index < d.parameters.length := by
  fun_induction pieces d joined tokens with
  | case1 => cases h
  | case2 joined t rest hmark hnil ih =>
    rcases List.mem_cons.mp h with rfl | h
    · cases hindex
    · exact ih h
  | case3 joined t rest hmark p after heq own hown ih =>
    rcases List.mem_cons.mp h with rfl | h
    · cases hindex
      exact lt_of_indexOf? hown
    · exact ih h
  | case4 joined t rest hmark p after heq hown ih =>
    rcases List.mem_cons.mp h with rfl | h
    · cases hindex
    · exact ih h
  | case5 =>
    rw [List.mem_singleton.mp h] at hindex
    cases hindex
  | case6 joined t rest hmark hpaste p after heq hrest ih =>
    rcases List.mem_cons.mp h with rfl | h
    · cases hindex
      have hlast := (Bool.and_eq_true_iff.mp hrest).2
      have hne : d.parameters ≠ [] := by
        rintro hnil
        rw [hnil] at hlast
        cases hlast
      exact Nat.sub_one_lt (mt List.length_eq_zero_iff.mp hne)
    · exact ih h
  | case7 joined t rest hmark hpaste p after heq hrest ih =>
    rcases List.mem_cons.mp h with rfl | h
    · cases hindex
    · exact ih h
  | case8 joined t rest hmark hpaste own hown hjoined ih =>
    rcases List.mem_cons.mp h with rfl | h
    · cases hindex
      split at hown
      · exact lt_of_indexOf? hown
      · cases hown
    · exact ih h
  | case9 joined t rest hmark hpaste own hown hjoined ih =>
    rcases List.mem_cons.mp h with rfl | h
    · cases hindex
      split at hown
      · exact lt_of_indexOf? hown
      · cases hown
    · exact ih h
  | case10 joined t rest hmark hpaste hown ih =>
    rcases List.mem_cons.mp h with rfl | h
    · cases hindex
    · exact ih h

end Definition

/-! ## Replacements -/

namespace Invocation

variable {i : Invocation} {expanded : List (Nat × List Token)}

/-- Lays out one piece with the argument that it is made of. -/
def layChecked (i : Invocation) (expanded : List (Nat × List Token)) (draft : Draft) (piece : Piece) :
    Except (Stop ε) Draft :=
  let lay (argument : List Token) : Draft :=
    Filling.lay { written := fun _ => argument, expanded := fun _ => argument, site := i.site.location }
      draft piece
  match piece with
  | .copy _ | .join => .ok (lay [])
  | .stringize index | .operand index | .joinRest index => (found i.arguments[index]?).map lay
  | .argument index => (found (expanded.lookup index)).map lay

/-- The tokens that replace an invocation, given its template and the expanded arguments. -/
def replacementChecked (i : Invocation) (template : List Piece) (expanded : List (Nat × List Token)) :
    Except (Stop ExpansionError) (List Token) :=
  match template.foldlM (i.layChecked expanded) {} with
  | .error stop => .error stop
  | .ok draft =>
    match Filling.joinItems draft.joins i.site.location 0 [] draft.items.reverse with
    | .error fault => .error (.raised (i.error fault))
    | .ok tokens => .ok (tokens.map fun t => t.hideBy i.hide)

theorem hide_of_replacementChecked {template : List Piece} {body : List Token}
    (hbody : i.replacementChecked template expanded = .ok body) :
    ∀ b ∈ hides body, ∀ x, x ∈ i.hide → x ∈ b := by
  unfold replacementChecked at hbody
  split at hbody
  · cases hbody
  split at hbody
  · cases hbody
  · cases hbody
    intro b hb x hx
    simp only [hides, List.map_map, List.mem_map] at hb
    obtain ⟨t, -, rfl⟩ := hb
    simp [Token.hideBy, hx]

theorem argument_of_lt {index : Nat} (h : index < i.arguments.length) :
    i.arguments[index]? = some (i.argument index) := by
  rw [argument, List.getElem?_eq_getElem h]
  rfl

theorem Complete.lt_of_mem {table : Table} (hi : i.Complete table) {piece : Piece} {index : Nat}
    (hpiece : piece ∈ i.definition.template) (hindex : piece.index? = some index) :
    index < i.arguments.length :=
  hi.arguments ▸ Definition.index_lt_of_mem_pieces hpiece hindex

theorem mem_expandedIndices {index : Nat} :
    index ∈ i.expandedIndices ↔ .argument index ∈ i.definition.template := by
  rw [expandedIndices, Piece.expandedIndices, List.mem_eraseDups, List.mem_filterMap]
  constructor
  · rintro ⟨piece, hpiece, heq⟩
    split at heq
    · cases heq
      exact hpiece
    · cases heq
  · exact fun h => ⟨_, h, rfl⟩

theorem layChecked_eq {inner : List Progress} {draft : Draft} {piece : Piece}
    (hwritten : ∀ index ∈ piece.index?, index < i.arguments.length)
    (hexpanded : ∀ index, piece = .argument index → ∃ found,
      (i.expandedIndices.zip (inner.map Progress.tokens)).lookup index = some found) :
    (i.layChecked (i.expandedIndices.zip (inner.map Progress.tokens)) draft piece :
      Except (Stop ε) Draft) = .ok ((i.filling inner).lay draft piece) := by
  have hargument : ∀ index ∈ piece.index?, i.arguments[index]? = some (i.argument index) :=
    fun index hindex => argument_of_lt (hwritten index hindex)
  cases piece with
  | copy t => rfl
  | join => rfl
  | argument index =>
    obtain ⟨found, hfound⟩ := hexpanded index rfl
    simp only [layChecked, hfound, Filling.lay, filling, Option.getD_some]
    rfl
  | stringize index =>
    simp only [layChecked, hargument index rfl]
    rfl
  | operand index =>
    simp only [layChecked, hargument index rfl]
    rfl
  | joinRest index =>
    simp only [layChecked, hargument index rfl]
    rfl

theorem exists_lookup_zip {α : Type} {index : Nat} {indices : List Nat} {as : List α}
    (h : index ∈ indices) (hlength : as.length = indices.length) :
    ∃ a, (indices.zip as).lookup index = some a := by
  cases hlookup : (indices.zip as).lookup index with
  | some a => exact ⟨a, rfl⟩
  | none =>
    have hkeys : index ∈ (indices.zip as).map Prod.fst := by
      rwa [List.map_fst_zip (Nat.le_of_eq hlength.symm)]
    obtain ⟨entry, hentry, rfl⟩ := List.mem_map.mp hkeys
    have hother := List.lookup_eq_none_iff.mp hlookup entry hentry
    rw [bne_self_eq_false] at hother
    cases hother

/-- Everything is there that a replacement is made of. -/
theorem replacementChecked_eq {table : Table} (hi : i.Complete table) {inner : List Progress}
    (hinner : inner.length = i.expandedIndices.length) :
    i.replacementChecked i.definition.template (i.expandedIndices.zip (inner.map Progress.tokens)) =
      raising (i.replacement (i.expandedIndices.zip (inner.map Progress.tokens))) := by
  have hlay : ∀ (template : List Piece) (draft : Draft), template ⊆ i.definition.template →
      (template.foldlM (i.layChecked (i.expandedIndices.zip (inner.map Progress.tokens))) draft :
        Except (Stop ExpansionError) Draft) = .ok (template.foldl (i.filling inner).lay draft) := by
    intro template
    induction template with
    | nil => exact fun _ _ => rfl
    | cons piece template ih =>
      intro draft hsub
      obtain ⟨hpiece, hsub⟩ := List.cons_subset.mp hsub
      rw [List.foldlM_cons, layChecked_eq]
      · exact ih _ hsub
      · exact fun index hindex => hi.lt_of_mem hpiece hindex
      · rintro index rfl
        exact exists_lookup_zip (mem_expandedIndices.mpr hpiece) (by rw [List.length_map, hinner])
  rw [replacementChecked, hlay _ _ (List.Subset.refl _), replacement_eq]
  dsimp only [Filling.fill]
  have hsite : (i.filling inner).site = i.site.location := rfl
  rw [hsite]
  cases Filling.joinItems (i.definition.template.foldl (i.filling inner).lay {}).joins
    i.site.location 0 [] (i.definition.template.foldl (i.filling inner).lay {}).items.reverse with
  | error fault => rfl
  | ok tokens => rfl

end Invocation

/-! ## Expansion -/

namespace Expander

variable {e : Expander} {depth : Nat} {done : Progress}

/-- What happens to the token `t` in front of `rest`. -/
def turnChecked (e : Expander) (t : Token) (rest : List Token) :
    Except (Stop ExpansionError) Turn :=
  match e.definition? t with
  | none => .ok (.emit t)
  | some d =>
    if t.text ∈ t.hide then .ok (.emit t.paint)
    else if d.builtin && Builtin.dynamicNames.contains t.text then .ok (.emit (dynamicValue t))
    else if !d.isFunction then
      .ok (.invoke
        { definition := d, site := t, arguments := [], hide := t.hide.insert t.text, rest })
    else if opensArguments rest then
      match openingChecked rest with
      | .error stop => .error stop
      | .ok opened => raising ((call d t opened).map .invoke)
    else .ok (.emit t)

theorem call_skipLayout (d : Definition) (t : Token) (rest : List Token) :
    call d t (skipLayout rest) = call d t rest := by
  rw [call, call, skipLayout, skipLayout, List.dropWhile_idempotent]

/-- An invocation that announces its argument list has one. -/
theorem turnChecked_eq (e : Expander) (t : Token) (rest : List Token) :
    e.turnChecked t rest = raising (e.turn t rest) := by
  unfold turnChecked turn
  cases e.definition? t with
  | none => rfl
  | some d =>
    dsimp only
    split
    · rfl
    split
    · rfl
    split
    · rfl
    split
    · rename_i hopens
      rw [openingChecked_eq hopens]
      exact congrArg (fun found => raising (Except.map Turn.invoke found)) (call_skipLayout d t rest)
    · rfl

theorem complete_of_turn {i : Invocation} (h : e.turn t rest = .ok (.invoke i)) :
    i.Complete e.table := by
  unfold turn at h
  split at h
  · cases h
  rename_i d hdefinition
  have hd := mem_of_definition? hdefinition
  split at h
  · cases h
  split at h
  · cases h
  split at h
  · rename_i hobject
    cases h
    refine ⟨hd, ?_⟩
    cases hshape : d.shape with
    | object =>
      rw [Definition.parameters, hshape]
      rfl
    | function parameters variadic =>
      rw [Definition.isFunction, hshape] at hobject
      cases hobject
  split at h
  · obtain ⟨j, hcall, hj⟩ := map_eq_ok_iff.mp h
    cases hj
    unfold call at hcall
    split at hcall
    · cases hcall
    split at hcall
    · cases hcall
    · rename_i arguments hsupply
      cases hcall
      exact ⟨hd, ArgumentList.length_of_supply hsupply⟩
  · cases h

/-- Expands the pending tokens of an argument `depth` levels deep, on top of what was done before.
-/
def runChecked (e : Expander) (depth : Nat) (done : Progress) (pending : List Token) :
    Except (Stop ExpansionError) Progress :=
  match pending with
  | [] => .ok done
  | t :: rest =>
    match _hturn : e.turnChecked t rest with
    | .error stop => .error stop
    | .ok (.emit u) => e.runChecked depth (done.emit u) rest
    | .ok (.invoke i) =>
      if e.exceeds depth i.hide.size then .error (.raised (e.tooDeep i))
      else
        match i.definition.templateChecked with
        | .error stop => .error stop
        | .ok template =>
          let indices := Piece.expandedIndices template
          let inner : Except (Stop ExpansionError) (List Progress) := indices.mapM fun index =>
            match _hargument : found i.arguments[index]? with
            | .error stop => .error stop
            | .ok argument =>
              if e.exceeds (depth + 1) 0 then .error (.raised (e.tooDeep i))
              else e.runChecked (depth + 1) {} argument
          match inner with
          | .error stop => .error stop
          | .ok inner =>
            match _hbody :
              i.replacementChecked template (indices.zip (inner.map Progress.tokens)) with
            | .error stop => .error stop
            | .ok body => e.runChecked depth (done.invoke i.site.text inner) (body ++ i.rest)
termination_by (⟨e.table.names, hides pending⟩ : Workload)
decreasing_by
  · exact ⟨trivial, .drop (List.Sublist.refl _)⟩
  · rw [turnChecked_eq, raising_eq_ok_iff] at _hturn
    have hargument : i.argument index = argument := by
      rw [Invocation.argument, (found_eq_ok_iff (ε := ExpansionError)).mp _hargument]
      rfl
    rw [← hargument]
    exact ⟨trivial, (found_of_turn _hturn).argument_descends index⟩
  · rw [turnChecked_eq, raising_eq_ok_iff] at _hturn
    exact ⟨trivial, (found_of_turn _hturn).descends (Invocation.hide_of_replacementChecked _hbody)⟩

section
variable {i : Invocation}

/-- The checked expansions of some arguments of an invocation, up to the first that stops. -/
def runCheckedArguments (e : Expander) (depth : Nat) (i : Invocation) (indices : List Nat) :
    Except (Stop ExpansionError) (List Progress) :=
  indices.mapM fun index =>
    match _hargument : found i.arguments[index]? with
    | .error stop => .error stop
    | .ok argument =>
      if e.exceeds (depth + 1) 0 then .error (.raised (e.tooDeep i))
      else e.runChecked (depth + 1) {} argument

theorem runChecked_nil : e.runChecked depth done [] = .ok done := by rw [runChecked]

theorem runChecked_of_error {error : ExpansionError} (h : e.turn t rest = .error error) :
    e.runChecked depth done (t :: rest) = .error (.raised error) := by
  have hturn : e.turnChecked t rest = .error (.raised error) := by rw [turnChecked_eq, h]; rfl
  rw [runChecked]
  split <;> simp_all

theorem runChecked_of_emit {u : Token} (h : e.turn t rest = .ok (.emit u)) :
    e.runChecked depth done (t :: rest) = e.runChecked depth (done.emit u) rest := by
  have hturn : e.turnChecked t rest = .ok (.emit u) := by rw [turnChecked_eq, h]; rfl
  rw [runChecked]
  split <;> simp_all

theorem runChecked_of_invoke (h : e.turn t rest = .ok (.invoke i)) :
    e.runChecked depth done (t :: rest) =
      if e.exceeds depth i.hide.size then .error (.raised (e.tooDeep i))
      else
        match i.definition.templateChecked with
        | .error stop => .error stop
        | .ok template =>
          match runCheckedArguments e depth i (Piece.expandedIndices template) with
          | .error stop => .error stop
          | .ok inner =>
            match i.replacementChecked template
              ((Piece.expandedIndices template).zip (inner.map Progress.tokens)) with
            | .error stop => .error stop
            | .ok body => e.runChecked depth (done.invoke i.site.text inner) (body ++ i.rest) := by
  have hturn : e.turnChecked t rest = .ok (.invoke i) := by rw [turnChecked_eq, h]; rfl
  rw [runChecked]
  split
  · simp_all
  · simp_all
  · rename_i j hj
    obtain rfl : i = j := by simpa [hj] using hturn.symm
    split
    · rfl
    cases i.definition.templateChecked with
    | error stop => rfl
    | ok template =>
      dsimp only
      change (match runCheckedArguments e depth i (Piece.expandedIndices template) with
        | .error stop => _
        | .ok inner => _) = _
      cases runCheckedArguments e depth i (Piece.expandedIndices template) with
      | error stop => rfl
      | ok inner =>
        dsimp only
        split <;> simp_all

/-- The arguments that are expanded are there. -/
theorem runCheckedArguments_eq {table : Table} (hi : i.Complete table)
    (h : ∀ index, e.runChecked (depth + 1) {} (i.argument index) =
      raising (e.run (depth + 1) {} (i.argument index))) :
    runCheckedArguments e depth i i.expandedIndices =
      raising (runArguments e depth i i.expandedIndices) := by
  refine mapM_raising fun index hindex => ?_
  have hlt := hi.lt_of_mem (Invocation.mem_expandedIndices.mp hindex) rfl
  rw [Invocation.argument_of_lt hlt]
  dsimp only [found]
  split
  · rfl
  · exact h index

/-- A checked invocation, once its arguments are known to be expanded as they are without checks. -/
theorem runChecked_of_complete (h : e.turn t rest = .ok (.invoke i))
    (hcollects : i.definition.isVariadic = true → i.definition.parameters ≠ [])
    (harguments : ∀ index, e.runChecked (depth + 1) {} (i.argument index) =
      raising (e.run (depth + 1) {} (i.argument index))) :
    e.runChecked depth done (t :: rest) =
      if e.exceeds depth i.hide.size then .error (.raised (e.tooDeep i))
      else
        match runArguments e depth i i.expandedIndices with
        | .error error => .error (.raised error)
        | .ok inner =>
          match i.replacement (i.expandedIndices.zip (inner.map Progress.tokens)) with
          | .error error => .error (.raised error)
          | .ok body => e.runChecked depth (done.invoke i.site.text inner) (body ++ i.rest) := by
  have hi := complete_of_turn h
  rw [runChecked_of_invoke h, Definition.templateChecked_eq hcollects]
  dsimp only
  rw [← Invocation.expandedIndices, runCheckedArguments_eq hi harguments]
  cases hinner : runArguments e depth i i.expandedIndices with
  | error error => rfl
  | ok inner =>
    have hreplacement := Invocation.replacementChecked_eq hi (length_of_mapM_eq_ok hinner)
    rw [raising_ok]
    dsimp only
    rw [hreplacement]
    cases i.replacement (i.expandedIndices.zip (inner.map Progress.tokens)) with
    | error error => rfl
    | ok body => rfl

end

/-- By definitions in which every variadic macro has a parameter nothing is missing. -/
theorem runChecked_eq (h : ∀ d ∈ e.table.definitions, d.isVariadic = true → d.parameters ≠ [])
    (depth : Nat) (done : Progress) (pending : List Token) :
    e.runChecked depth done pending = raising (e.run depth done pending) := by
  have hcollects : ∀ {t : Token} {rest : List Token} {i : Invocation},
      e.turn t rest = .ok (.invoke i) → i.definition.isVariadic = true →
        i.definition.parameters ≠ [] :=
    fun hturn => h _ (complete_of_turn hturn).definition
  induction depth, done, pending using run_induction with
  | nil depth done => exact runChecked_nil
  | failed depth done t rest error hturn => exact runChecked_of_error hturn
  | emit depth done t rest u hturn ih => exact (runChecked_of_emit hturn).trans ih
  | deep depth done t rest i hturn hdeep =>
    rw [runChecked_of_invoke hturn, if_pos hdeep]
    rfl
  | argument depth done t rest i error hturn hdeep hinner ih =>
    rw [runChecked_of_complete hturn (hcollects hturn) ih, hdeep, if_neg Bool.false_ne_true, hinner]
    rfl
  | replacement depth done t rest i inner error hturn hdeep hinner hbody ih =>
    rw [runChecked_of_complete hturn (hcollects hturn) ih, hdeep, if_neg Bool.false_ne_true, hinner]
    dsimp only
    rw [hbody]
    rfl
  | invoke depth done t rest i inner body hturn hdeep hinner hbody iharguments ih =>
    rw [runChecked_of_complete hturn (hcollects hturn) iharguments, hdeep,
      if_neg Bool.false_ne_true, hinner]
    dsimp only
    rw [hbody]
    exact ih

/-- Expands all invocations in a list of tokens. -/
def expandChecked (e : Expander) (tokens : List Token) : Except (Stop ExpansionError) Expansion :=
  (e.runChecked 0 {} (tokens.filter fun t => t.kind ≠ .endOfInput)).map fun p =>
    { tokens := p.tokens.filter fun t => t.kind ≠ .placemarker, trace := p.trace.reverse }

/-- An expansion finds all that it looks up, if every variadic macro has a parameter. -/
theorem expandChecked_eq (h : ∀ d ∈ e.table.definitions, d.isVariadic = true → d.parameters ≠ [])
    (tokens : List Token) : e.expandChecked tokens = raising (e.expand tokens) := by
  rw [expandChecked, expand, runChecked_eq h, raising_map]

end Expander

end CPreprocessor
