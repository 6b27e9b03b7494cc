import CPreprocessor.Proofs.Except
import CPreprocessor.Proofs.Expansion.Run
import CPreprocessor.Proofs.Expansion.Template

/-!
# Expansion does not look at places

Tokens at other places are expanded to the same tokens at other places, by any macros that differ in
their places at most (`Expander.expand_relocate`). Only `__FILE__` and `__LINE__` look at a place, so a
table must be without them, or tokens must be moved within their lines.
-/

namespace CPreprocessor

/-! ## Tokens in other places -/

/-- A token with its place moved. -/
def Token.relocate (f : Location → Location) (t : Token) : Token := t.moveTo (f t.location)

variable {f : Location → Location}

namespace Token

@[simp] theorem kind_relocate (t : Token) : (t.relocate f).kind = t.kind := rfl

@[simp] theorem text_relocate (t : Token) : (t.relocate f).text = t.text := rfl

@[simp] theorem location_relocate (t : Token) : (t.relocate f).location = f t.location := rfl

@[simp] theorem hide_relocate (t : Token) : (t.relocate f).hide = t.hide := rfl

@[simp] theorem painted_relocate (t : Token) : (t.relocate f).painted = t.painted := rfl

@[simp] theorem isLayout_relocate (t : Token) : (t.relocate f).isLayout = t.isLayout := rfl

@[simp] theorem isIdentifier_relocate (t : Token) : (t.relocate f).isIdentifier = t.isIdentifier :=
  rfl

@[simp] theorem isPunctuator_relocate (t : Token) (text : String) :
    (t.relocate f).isPunctuator text = t.isPunctuator text := rfl

@[simp] theorem blank_relocate (location : Location) :
    (Token.blank location).relocate f = .blank (f location) := rfl

theorem withoutNewline_relocate (t : Token) :
    (t.relocate f).withoutNewline = t.withoutNewline.relocate f := by
  unfold withoutNewline
  rw [kind_relocate]
  split
  · rfl
  · rfl

end Token

variable {t : Token} {rest tokens : List Token}

theorem skipLayout_relocate (tokens : List Token) :
    skipLayout (tokens.map (.relocate f)) = (skipLayout tokens).map (.relocate f) :=
  List.dropWhile_map ..

theorem trimLayout_relocate (tokens : List Token) :
    trimLayout (tokens.map (.relocate f)) = (trimLayout tokens).map (.relocate f) := by
  rw [trimLayout, skipLayout_relocate, ← List.map_reverse, skipLayout_relocate, ← List.map_reverse,
    trimLayout]

theorem opensArguments_relocate (tokens : List Token) :
    opensArguments (tokens.map (.relocate f)) = opensArguments tokens := by
  rw [opensArguments, skipLayout_relocate, List.head?_map, Option.any_map]
  rfl

/-! ## Definitions alike -/

/-- Two definitions that differ in places and version at most. -/
structure Definition.Alike (d d' : Definition) : Prop where
  name : d'.name = d.name
  shape : d'.shape = d.shape
  replacement : d'.replacement.map (Token.relocate fun _ => default) =
    d.replacement.map (Token.relocate fun _ => default)
  builtin : d'.builtin = d.builtin

/-- A piece with its token moved. -/
def Piece.relocate (f : Location → Location) : Piece → Piece
  | .copy t => .copy (t.relocate f)
  | piece => piece

namespace Definition

variable {d d' : Definition}

theorem readsAs_relocate (h : d'.shape = d.shape) (t : Token) :
    d.ReadsAs d' (.relocate f) (.relocate f) t where
  isLayout := rfl
  isIdentifier := rfl
  isPunctuator _ := rfl
  indexOf? := by rw [indexOf?, parameters, h, Token.text_relocate, indexOf?, parameters]
  collects := by rw [parameters, h, Token.text_relocate, parameters]
  copied _ := rfl

theorem pieces_relocate (h : d'.shape = d.shape) (joined : Bool) (tokens : List Token) :
    d'.pieces joined (tokens.map (.relocate f)) = (d.pieces joined tokens).map (.relocate f) := by
  have hfunction : d'.isFunction = d.isFunction := by rw [isFunction, h, isFunction]
  have hparameters : d'.parameters = d.parameters := by rw [parameters, h, parameters]
  have hvariadic : d'.isVariadic = d.isVariadic := by rw [isVariadic, h, isVariadic]
  rw [pieces_map hfunction hvariadic (congrArg List.length hparameters) joined
    fun t _ => readsAs_relocate h t]
  refine List.map_congr_left fun piece _ => ?_
  cases piece with
  | _ => rfl

theorem Alike.template (h : d.Alike d') :
    d'.template.map (Piece.relocate fun _ => default) =
      d.template.map (Piece.relocate fun _ => default) := by
  rw [Definition.template, Definition.template, ← pieces_relocate h.shape.symm, h.replacement,
    pieces_relocate rfl]

theorem Alike.refl (d : Definition) : d.Alike d := ⟨rfl, rfl, rfl, rfl⟩

end Definition

theorem Piece.expandedIndices_relocate (template : List Piece) :
    expandedIndices (template.map (.relocate f)) = expandedIndices template := by
  rw [expandedIndices, List.filterMap_map, expandedIndices]
  congr 2
  funext piece
  cases piece with
  | _ => rfl

theorem Definition.Alike.expandedIndices {d d' : Definition} (h : d.Alike d') :
    Piece.expandedIndices d'.template = Piece.expandedIndices d.template := by
  rw [← Piece.expandedIndices_relocate, h.template, Piece.expandedIndices_relocate]

/-! ## Replacements -/

namespace Token

theorem stringize_relocate (argument : List Token) (site : Location) :
    stringize (argument.map (.relocate f)) (f site) = (stringize argument site).relocate f := by
  have hspellings : ∀ started gap, spellings started gap (argument.map (.relocate f)) =
      spellings started gap argument := by
    induction argument with
    | nil => exact fun _ _ => rfl
    | cons t ts ih =>
      intro started gap
      rw [List.map_cons, spellings, spellings, ih, ih]
      rfl
  rw [stringize, hspellings, stringize]
  rfl

theorem paste?_relocate (left right : Token) (site : Location) :
    (left.relocate f).paste? (right.relocate f) (f site) = (left.paste? right site).map (.relocate f) := by
  unfold paste?
  rw [kind_relocate, kind_relocate, text_relocate, text_relocate]
  split
  · rfl
  split
  · rfl
  split
  · split
    · rfl
    · rfl
  · rfl

end Token

/-- What has been laid out, moved. -/
def Draft.relocate (f : Location → Location) (d : Draft) : Draft :=
  { d with items := d.items.map (.relocate f) }

namespace Draft

theorem append_relocate (d : Draft) (tokens : List Token) :
    (d.relocate f).append (tokens.map (.relocate f)) = (d.append tokens).relocate f := by
  rw [append, relocate, append, relocate, ← List.map_reverse, ← List.map_append]

theorem dropBlanks_relocate (d : Draft) : (d.relocate f).dropBlanks = d.dropBlanks.relocate f := by
  rw [dropBlanks, relocate, List.dropWhile_map]
  rfl

theorem join_relocate (d : Draft) : (d.relocate f).join = d.join.relocate f := by
  rw [join, dropBlanks_relocate, join, relocate, relocate, List.length_map]

end Draft

namespace Filling

/-- What is put in the place of parameters, moved. -/
def relocate (f : Location → Location) (g : Filling) : Filling where
  written index := (g.written index).map (.relocate f)
  expanded index := (g.expanded index).map (.relocate f)
  site := f g.site

variable {g : Filling}

theorem operand_relocate (index : Nat) :
    (g.relocate f).operand index = (g.operand index).map (.relocate f) := by
  simp only [operand, relocate, List.isEmpty_map]
  split
  · rfl
  · rfl

/-- A copied token is put to the place of the invocation, whatever its own. -/
theorem lay_relocate {p q : Piece}
    (h : q.relocate (fun _ => default) = p.relocate fun _ => default) (d : Draft) :
    (g.relocate f).lay (d.relocate f) q = (g.lay d p).relocate f := by
  have hjoin : ∀ index, (d.relocate f).join.append ((g.relocate f).operand index) =
      (d.join.append (g.operand index)).relocate f := by
    intro index
    rw [Draft.join_relocate, operand_relocate, Draft.append_relocate]
  cases p with
  | copy t =>
    cases q with
    | copy u =>
      have hplaceless : u.relocate (fun _ => default) = t.relocate fun _ => default := Piece.copy.inj h
      have hmoved : u.moveTo (f g.site) = (t.moveTo g.site).relocate f := by
        show (u.relocate fun _ => default).moveTo (f g.site) = (t.relocate fun _ => default).moveTo _
        rw [hplaceless]
        rfl
      rw [lay, lay, ← Draft.append_relocate, List.map_singleton, ← hmoved]
      rfl
    | _ => cases h
  | joinRest index =>
    cases q with
    | joinRest index' =>
      cases h
      have hitems : (d.dropBlanks.relocate f).items = d.dropBlanks.items.map (.relocate f) := rfl
      have hempty : ((g.relocate f).written index).isEmpty = (g.written index).isEmpty :=
        List.isEmpty_map
      rw [lay, lay, Draft.dropBlanks_relocate, hitems, hempty]
      cases d.dropBlanks.items with
      | nil => exact hjoin index
      | cons t before =>
        simp only [List.map_cons]
        by_cases hcomma : t.isPunctuator "," = true
        · rw [if_pos hcomma, if_pos (show (t.relocate f).isPunctuator "," = true from hcomma)]
          split
          · rfl
          · exact Draft.append_relocate ..
        · rw [if_neg hcomma, if_neg (show ¬ (t.relocate f).isPunctuator "," = true from hcomma)]
          exact hjoin index
    | _ => cases h
  | stringize index =>
    cases q with
    | stringize index' =>
      cases h
      rw [lay, lay, ← Draft.append_relocate, List.map_singleton, ← Token.stringize_relocate]
      rfl
    | _ => cases h
  | operand index =>
    cases q with
    | operand index' =>
      cases h
      rw [lay, lay, operand_relocate, Draft.append_relocate]
    | _ => cases h
  | argument index =>
    cases q with
    | argument index' =>
      cases h
      exact Draft.append_relocate ..
    | _ => cases h
  | join =>
    cases q with
    | join => exact Draft.join_relocate d
    | _ => cases h

theorem foldl_lay_relocate {template template' : List Piece}
    (h : template'.map (Piece.relocate fun _ => default) =
      template.map (Piece.relocate fun _ => default)) (d : Draft) :
    template'.foldl (g.relocate f).lay (d.relocate f) = (template.foldl g.lay d).relocate f := by
  induction template generalizing template' d with
  | nil =>
    obtain rfl : template' = [] := by simpa using h
    rfl
  | cons p template ih =>
    cases template' with
    | nil => cases h
    | cons q template' =>
      obtain ⟨hq, htemplate⟩ := List.cons.inj h
      rw [List.foldl_cons, List.foldl_cons, lay_relocate hq, ih htemplate]

theorem joinItems_relocate (joins : List Nat) (site : Location) (position : Nat)
    (done tokens : List Token) :
    joinItems joins (f site) position (done.map (.relocate f)) (tokens.map (.relocate f)) =
      (joinItems joins site position done tokens).map (List.map (.relocate f)) := by
  induction tokens generalizing position done with
  | nil =>
    rw [List.map_nil, joinItems, joinItems, ← List.map_reverse]
    rfl
  | cons t ts ih =>
    cases done with
    | nil => exact ih (position + 1) [t]
    | cons left before =>
      rw [List.map_cons, List.map_cons, joinItems, joinItems]
      split
      · rw [Token.paste?_relocate]
        cases left.paste? t site with
        | none => rfl
        | some joined => exact ih (position + 1) (joined :: before)
      · exact ih (position + 1) (t :: left :: before)

theorem fill_relocate {template template' : List Piece}
    (h : template'.map (Piece.relocate fun _ => default) =
      template.map (Piece.relocate fun _ => default)) :
    (g.relocate f).fill template' = (g.fill template).map (List.map (.relocate f)) := by
  have hdraft : template'.foldl (g.relocate f).lay {} = (template.foldl g.lay {}).relocate f :=
    foldl_lay_relocate h {}
  simp only [fill]
  rw [hdraft, Draft.relocate, ← List.map_reverse]
  exact joinItems_relocate _ g.site 0 [] _

end Filling

/-! ## Invocations -/

/-- An error at another place. -/
def ExpansionError.relocate (f : Location → Location) (error : ExpansionError) : ExpansionError :=
  { error with location := error.location.map f }

namespace ArgumentList

/-- An argument list at other places. -/
def relocate (f : Location → Location) (list : ArgumentList) : ArgumentList where
  arguments := list.arguments.map (List.map (.relocate f))
  closing := list.closing.relocate f
  rest := list.rest.map (.relocate f)

theorem read_relocate (named : Nat) (variadic : Bool) (depth : Nat) (done : List (List Token))
    (current tokens : List Token) :
    read named variadic depth (done.map (List.map (.relocate f))) (current.map (.relocate f))
        (tokens.map (.relocate f)) =
      (read named variadic depth done current tokens).map (.relocate f) := by
  have hsnoc : ∀ (current : List Token) (t : Token),
      current.map (Token.relocate f) ++ [t.relocate f] = (current ++ [t]).map (.relocate f) :=
    fun current t => by rw [List.map_append, List.map_singleton]
  fun_induction read named variadic depth done current tokens with
  | case1 => rfl
  | case2 depth done current t ts hopen ih =>
    rw [List.map_cons, read, if_pos (by simpa using hopen), hsnoc, ih]
  | case3 done current t ts hopen hclose =>
    rw [List.map_cons, read, if_neg (by simpa using hopen), if_pos (by simpa using hclose), if_pos rfl,
      Option.map_some, relocate, ← List.map_singleton, ← List.map_append, List.map_map, List.map_map]
    congr 3
    funext argument
    exact trimLayout_relocate argument
  | case4 depth done current t ts hopen hclose hdepth ih =>
    rw [List.map_cons, read, if_neg (by simpa using hopen), if_pos (by simpa using hclose),
      if_neg hdepth, hsnoc, ih]
  | case5 depth done current t ts hopen hclose hcomma ih =>
    rw [List.map_cons, read, if_neg (by simpa using hopen), if_neg (by simpa using hclose),
      if_pos (by simpa using hcomma), ← List.map_singleton, ← List.map_append]
    exact ih
  | case6 depth done current t ts hopen hclose hcomma ih =>
    rw [List.map_cons, read, if_neg (by simpa using hopen), if_neg (by simpa using hclose),
      if_neg (by simpa using hcomma), Token.withoutNewline_relocate, hsnoc, ih]

theorem supply_relocate {d d' : Definition} (h : d.Alike d') (arguments : List (List Token)) :
    supply d' (arguments.map (List.map (.relocate f))) =
      (supply d arguments).map (List.map (List.map (.relocate f))) := by
  have hparameters : d'.parameters = d.parameters := by
    rw [Definition.parameters, h.shape, Definition.parameters]
  have hvariadic : d'.isVariadic = d.isVariadic := by
    rw [Definition.isVariadic, h.shape, Definition.isVariadic]
  have hempty : (arguments.map (List.map (Token.relocate f))).all List.isEmpty =
      arguments.all List.isEmpty := by
    rw [List.all_map]
    congr 1
    funext argument
    exact List.isEmpty_map
  simp only [supply, hparameters, hvariadic, List.length_map, hempty]
  split
  · rfl
  split
  · simp only [Except.map, List.map_append]
    rfl
  split
  · rfl
  · rfl

end ArgumentList

namespace Invocation

/-- An invocation at other places, by another definition. -/
def relocate (f : Location → Location) (d : Definition) (i : Invocation) : Invocation where
  definition := d
  site := i.site.relocate f
  arguments := i.arguments.map (List.map (.relocate f))
  hide := i.hide
  rest := i.rest.map (.relocate f)

variable {i : Invocation} {d : Definition}

theorem argument_relocate (index : Nat) :
    (i.relocate f d).argument index = (i.argument index).map (.relocate f) := by
  rw [argument, relocate, List.getElem?_map, argument]
  cases i.arguments[index]? with
  | none => rfl
  | some argument => rfl

theorem expandedIndices_relocate (h : i.definition.Alike d) :
    (i.relocate f d).expandedIndices = i.expandedIndices := h.expandedIndices

end Invocation

/-- What an expansion has produced, moved. -/
def Progress.relocate (f : Location → Location) (p : Progress) : Progress :=
  { p with output := p.output.map (.relocate f) }

theorem Progress.tokens_relocate (p : Progress) :
    (p.relocate f).tokens = p.tokens.map (.relocate f) := List.map_reverse.symm

theorem Progress.invoke_relocate (p : Progress) (name : String) (inner : List Progress) :
    (p.relocate f).invoke name (inner.map (.relocate f)) = (p.invoke name inner).relocate f := by
  rw [invoke, List.map_map]
  rfl

theorem Invocation.replacement_relocate {i : Invocation} {d : Definition}
    (h : i.definition.Alike d) (inner : List Progress) :
    (i.relocate f d).replacement ((i.relocate f d).expandedIndices.zip
        ((inner.map (.relocate f)).map Progress.tokens)) =
      moved (.relocate f) (List.map (.relocate f))
        (i.replacement (i.expandedIndices.zip (inner.map Progress.tokens))) := by
  have hfilling : (i.relocate f d).filling (inner.map (.relocate f)) =
      (i.filling inner).relocate f := by
    have hzip : i.expandedIndices.zip ((inner.map (Progress.relocate f)).map Progress.tokens) =
        (i.expandedIndices.zip (inner.map Progress.tokens)).map (Prod.map id (List.map (.relocate f))) := by
      rw [← List.zip_map_right, List.map_map, List.map_map]
      congr 2
      funext p
      exact p.tokens_relocate
    rw [filling, expandedIndices_relocate h, hzip, filling, Filling.relocate]
    congr 1
    · funext index
      exact argument_relocate index
    · funext index
      rw [lookup_map_snd]
      exact Option.getD_map (List.map (Token.relocate f)) [] _
  rw [replacement_eq, replacement_eq, hfilling, relocate, Filling.fill_relocate h.template]
  cases (i.filling inner).fill i.definition.template with
  | error fault =>
    simp only [Except.map, moved_error]
    rw [error, h.name]
    rfl
  | ok tokens =>
    simp only [Except.map, moved_ok, List.map_map]
    rfl

/-! ## Turns -/

/-- Two turns, the second one with tokens moved and with a definition alike. -/
inductive Turn.Moved (f : Location → Location) : Turn → Turn → Prop where
  | emit (t : Token) : Moved f (.emit t) (.emit (t.relocate f))
  | invoke {i : Invocation} {d : Definition} (alike : i.definition.Alike d) :
    Moved f (.invoke i) (.invoke (i.relocate f d))

/-- Two expanders whose macros differ in places and versions at most. -/
structure Expander.Alike (e e' : Expander) : Prop where
  lookup : ∀ name, Option.Rel Definition.Alike (e.table.lookup name) (e'.table.lookup name)
  limit : e'.limit = e.limit
  frozen : e'.frozen = e.frozen

/-- Whether no macro of a table stands for the place where it is used. -/
def Table.Placeless (table : Table) : Prop :=
  ∀ d ∈ table.definitions, d.builtin = true → d.name ∉ Builtin.dynamicNames

theorem Table.Placeless.not_dynamic {table : Table} (h : table.Placeless) {name : String}
    {d : Definition} (hd : table.lookup name = some d) :
    (d.builtin && Builtin.dynamicNames.contains name) = false := by
  have hname : d.name = name := by simpa using List.find?_some hd
  cases hbuiltin : d.builtin with
  | false => rfl
  | true =>
    have hnot := h d (List.mem_of_find?_eq_some hd) hbuiltin
    rw [hname] at hnot
    simpa using hnot

/-- Whether no macro of a table sees that places are moved: none stands for the place where it is used,
or files and lines stay. -/
def Table.Overlooks (f : Location → Location) (table : Table) : Prop :=
  table.Placeless ∨ ∀ l, (f l).file = l.file ∧ (f l).line = l.line

/-- A value stays what it is in all columns. -/
theorem dynamicValue_relocate (hf : ∀ l, (f l).file = l.file ∧ (f l).line = l.line) (t : Token) :
    dynamicValue (t.relocate f) = (dynamicValue t).relocate f := by
  obtain ⟨hfile, hline⟩ := hf t.location
  simp only [dynamicValue, Token.text_relocate, Token.hide_relocate, Token.location_relocate, hfile, hline]
  split
  · rfl
  · rfl

theorem dynamicValue_of_overlooks {table : Table} (h : table.Overlooks f) {d : Definition}
    (hd : table.lookup t.text = some d)
    (hvalue : (d.builtin && Builtin.dynamicNames.contains t.text) = true) :
    dynamicValue (t.relocate f) = (dynamicValue t).relocate f := by
  rcases h with hplaceless | hcolumns
  · rw [hplaceless.not_dynamic hd] at hvalue
    cases hvalue
  · exact dynamicValue_relocate hcolumns t

namespace Expander

variable {e e' : Expander}

theorem Alike.refl (e : Expander) : e.Alike e := by
  refine ⟨fun name => ?_, rfl, rfl⟩
  cases e.table.lookup name with
  | none => exact .none
  | some d => exact .some (.refl d)

theorem Alike.definition? (h : e.Alike e') (t : Token) :
    Option.Rel Definition.Alike (e.definition? t) (e'.definition? (t.relocate f)) := by
  rw [Expander.definition?, Expander.definition?, h.frozen, Token.isIdentifier_relocate,
    Token.painted_relocate, Token.text_relocate]
  split
  · exact h.lookup t.text
  · exact .none

theorem call_relocate {d d' : Definition} (h : d.Alike d') (t : Token) (rest : List Token) :
    call d' (t.relocate f) (rest.map (.relocate f)) =
      moved (.relocate f) (Invocation.relocate f d') (call d t rest) := by
  have hparameters : d'.parameters = d.parameters := by
    rw [Definition.parameters, h.shape, Definition.parameters]
  have hvariadic : d'.isVariadic = d.isVariadic := by
    rw [Definition.isVariadic, h.shape, Definition.isVariadic]
  have hread : ArgumentList.read d'.parameters.length d'.isVariadic 0 [] []
      (skipLayout (rest.map (.relocate f))).tail =
        (ArgumentList.read d.parameters.length d.isVariadic 0 [] [] (skipLayout rest).tail).map
          (.relocate f) := by
    rw [hparameters, hvariadic, skipLayout_relocate, ← List.map_tail]
    exact ArgumentList.read_relocate _ _ 0 [] [] _
  rw [call, hread, call]
  cases ArgumentList.read d.parameters.length d.isVariadic 0 [] [] (skipLayout rest).tail with
  | none =>
    simp only [Option.map_none]
    rw [h.name]
    rfl
  | some list =>
    have hsupply := ArgumentList.supply_relocate (f := f) h list.arguments
    simp only [Option.map_some, ArgumentList.relocate, hsupply]
    cases ArgumentList.supply d list.arguments with
    | error fault =>
      simp only [Except.map]
      rw [h.name]
      rfl
    | ok arguments => rfl

theorem definition_of_call {d : Definition} {i : Invocation} (h : call d t rest = .ok i) :
    i.definition = d := by
  rw [call] at h
  split at h
  · cases h
  split at h
  · cases h
  · cases h
    rfl

theorem turn_relocate (h : e.Alike e') (hoverlooks : e.table.Overlooks f) (t : Token)
    (rest : List Token) :
    (∀ turn, e.turn t rest = .ok turn →
      ∃ turn', e'.turn (t.relocate f) (rest.map (.relocate f)) = .ok turn' ∧ turn.Moved f turn') ∧
    ∀ error, e.turn t rest = .error error →
      e'.turn (t.relocate f) (rest.map (.relocate f)) = .error (error.relocate f) := by
  have settled : ∀ {turn turn' : Turn}, turn.Moved f turn' →
      (∀ found, Except.ok (ε := ExpansionError) turn = .ok found →
        ∃ found', Except.ok (ε := ExpansionError) turn' = .ok found' ∧ found.Moved f found') ∧
      ∀ error : ExpansionError, Except.ok turn = .error error →
        Except.ok turn' = .error (error.relocate f) := by
    intro turn turn' hmoved
    refine ⟨fun found hfound => ?_, fun error herror => ?_⟩
    · cases hfound
      exact ⟨turn', rfl, hmoved⟩
    · cases herror
  have hdefinition := h.definition? (f := f) t
  rw [Expander.turn, Expander.turn]
  cases hd : e.definition? t with
  | none =>
    rw [hd] at hdefinition
    cases hd' : e'.definition? (t.relocate f) with
    | none => exact settled (.emit t)
    | some d' =>
      rw [hd'] at hdefinition
      cases hdefinition
  | some d =>
    rw [hd] at hdefinition
    cases hd' : e'.definition? (t.relocate f) with
    | none =>
      rw [hd'] at hdefinition
      cases hdefinition
    | some d' =>
      rw [hd'] at hdefinition
      obtain ⟨halike⟩ := hdefinition
      have hlookup : e.table.lookup t.text = some d := by
        unfold Expander.definition? at hd
        split at hd
        · exact hd
        · cases hd
      have hfunction : d'.isFunction = d.isFunction := by
        rw [Definition.isFunction, halike.shape, Definition.isFunction]
      have hdynamic : (d'.builtin && Builtin.dynamicNames.contains (t.relocate f).text) =
          (d.builtin && Builtin.dynamicNames.contains t.text) := by
        rw [halike.builtin, Token.text_relocate]
      simp only
      by_cases hpaint : t.text ∈ t.hide
      · rw [if_pos hpaint, if_pos (show (t.relocate f).text ∈ (t.relocate f).hide from hpaint)]
        exact settled (.emit t.paint)
      rw [if_neg hpaint, if_neg (show (t.relocate f).text ∉ (t.relocate f).hide from hpaint), hdynamic]
      by_cases hvalue : (d.builtin && Builtin.dynamicNames.contains t.text) = true
      · rw [if_pos hvalue, if_pos hvalue, dynamicValue_of_overlooks hoverlooks hlookup hvalue]
        exact settled (.emit (dynamicValue t))
      rw [if_neg hvalue, if_neg hvalue, hfunction]
      cases d.isFunction with
      | false => exact settled (.invoke halike)
      | true =>
        rw [opensArguments_relocate, call_relocate halike]
        cases opensArguments rest with
        | false => exact settled (.emit t)
        | true =>
          simp only [if_true]
          refine ⟨fun turn hturn => ?_, fun error hturn => ?_⟩
          · obtain ⟨i, hi, rfl⟩ := map_eq_ok_iff.mp hturn
            rw [hi]
            exact ⟨_, rfl, .invoke ((definition_of_call hi).symm ▸ halike)⟩
          · rw [map_eq_error_iff.mp hturn]
            rfl

/-! ## Expansions -/

theorem Alike.exceeds (h : e.Alike e') (depth size : Nat) :
    e'.exceeds depth size = e.exceeds depth size := by
  rw [Expander.exceeds, h.limit, Expander.exceeds]

theorem Alike.tooDeep (h : e.Alike e') (i : Invocation) (d : Definition) :
    e'.tooDeep (i.relocate f d) = (e.tooDeep i).relocate f := by
  rw [Expander.tooDeep, h.limit, Expander.tooDeep]
  rfl

theorem runArguments_relocate (h : e.Alike e') {depth : Nat} {i : Invocation} {d : Definition}
    (hargument : ∀ index, e'.run (depth + 1) {} ((i.argument index).map (.relocate f)) =
      moved (.relocate f) (.relocate f) (e.run (depth + 1) {} (i.argument index))) (indices : List Nat) :
    runArguments e' depth (i.relocate f d) indices =
      moved (.relocate f) (List.map (.relocate f)) (runArguments e depth i indices) := by
  induction indices with
  | nil => rfl
  | cons index indices ih =>
    unfold runArguments at ih ⊢
    rw [mapM_cons_except, mapM_cons_except, ih, h.exceeds, h.tooDeep, Invocation.argument_relocate,
      hargument]
    cases e.exceeds (depth + 1) 0 with
    | true => rfl
    | false =>
      simp only [Bool.false_eq_true, if_false]
      cases e.run (depth + 1) {} (i.argument index) with
      | error error => rfl
      | ok p =>
        generalize List.mapM (m := Except ExpansionError) _ indices = outcome
        cases outcome with
        | error error => rfl
        | ok inner => rfl

theorem run_relocate (h : e.Alike e') (hoverlooks : e.table.Overlooks f) (depth : Nat)
    (done : Progress) (tokens : List Token) :
    e'.run depth (done.relocate f) (tokens.map (.relocate f)) =
      moved (.relocate f) (.relocate f) (e.run depth done tokens) := by
  have hinvoke : ∀ {t : Token} {rest : List Token} {i : Invocation},
      e.turn t rest = .ok (.invoke i) →
      ∃ d, i.definition.Alike d ∧ e'.turn (t.relocate f) (rest.map (.relocate f)) =
        .ok (.invoke (i.relocate f d)) := by
    intro t rest i hturn
    obtain ⟨turn', hturn', hmoved⟩ := (turn_relocate (f := f) h hoverlooks t rest).1 _ hturn
    cases hmoved with
    | @invoke _ d halike => exact ⟨d, halike, hturn'⟩
  induction depth, done, tokens using run_induction with
  | nil depth done => exact run_nil
  | failed depth done t rest error hturn =>
    exact run_of_error ((turn_relocate h hoverlooks t rest).2 error hturn)
  | emit depth done t rest u hturn ih =>
    obtain ⟨turn', hturn', hmoved⟩ := (turn_relocate (f := f) h hoverlooks t rest).1 _ hturn
    cases hmoved with
    | emit =>
      rw [List.map_cons, run_of_emit hturn']
      exact ih
  | deep depth done t rest i hturn hdeep =>
    obtain ⟨d, -, hturn'⟩ := hinvoke hturn
    rw [List.map_cons, run_of_deep hturn' ((h.exceeds ..).trans hdeep), h.tooDeep]
    rfl
  | argument depth done t rest i error hturn hdeep hinner ih =>
    obtain ⟨d, halike, hturn'⟩ := hinvoke hturn
    have hinner' := runArguments_relocate (f := f) (d := d) h ih i.expandedIndices
    rw [hinner, ← Invocation.expandedIndices_relocate (f := f) halike] at hinner'
    rw [List.map_cons, run_of_argument hturn' ((h.exceeds ..).trans hdeep) hinner']
    rfl
  | replacement depth done t rest i inner error hturn hdeep hinner hbody ih =>
    obtain ⟨d, halike, hturn'⟩ := hinvoke hturn
    have hinner' := runArguments_relocate (f := f) (d := d) h ih i.expandedIndices
    rw [hinner, ← Invocation.expandedIndices_relocate (f := f) halike] at hinner'
    have hbody' := Invocation.replacement_relocate (f := f) halike inner
    rw [hbody] at hbody'
    rw [List.map_cons, run_of_replacement hturn' ((h.exceeds ..).trans hdeep) hinner' hbody']
    rfl
  | invoke depth done t rest i inner body hturn hdeep hinner hbody iha ih =>
    obtain ⟨d, halike, hturn'⟩ := hinvoke hturn
    have hinner' := runArguments_relocate (f := f) (d := d) h iha i.expandedIndices
    rw [hinner, ← Invocation.expandedIndices_relocate (f := f) halike] at hinner'
    have hbody' := Invocation.replacement_relocate (f := f) halike inner
    rw [hbody] at hbody'
    have hpending : body.map (Token.relocate f) ++ (i.relocate f d).rest =
        (body ++ i.rest).map (.relocate f) := List.map_append.symm
    rw [List.map_cons, run_of_body hturn' ((h.exceeds ..).trans hdeep) hinner' hbody', hpending, ← ih,
      ← Progress.invoke_relocate]
    rfl

/-- The outcome of an expansion, moved. -/
def Expansion.relocate (f : Location → Location) (x : Expansion) : Expansion :=
  { x with tokens := x.tokens.map (.relocate f) }

/-- Tokens at other places are expanded alike by macros that are alike. -/
theorem expand_relocate (h : e.Alike e') (hoverlooks : e.table.Overlooks f) (tokens : List Token) :
    e'.expand (tokens.map (.relocate f)) = moved (.relocate f) (.relocate f) (e.expand tokens) := by
  have hrun : e'.run 0 {} ((tokens.filter fun t => t.kind ≠ .endOfInput).map (.relocate f)) =
      moved (.relocate f) (.relocate f) (e.run 0 {} (tokens.filter fun t => t.kind ≠ .endOfInput)) :=
    run_relocate h hoverlooks 0 {} _
  have hfilter : ∀ (kind : Kind) (ts : List Token),
      (ts.map (Token.relocate f)).filter (fun t => t.kind ≠ kind) =
        (ts.filter fun t => t.kind ≠ kind).map (.relocate f) := fun kind ts => List.filter_map
  rw [expand, hfilter, expand, hrun]
  cases e.run 0 {} (tokens.filter fun t => t.kind ≠ .endOfInput) with
  | error error => rfl
  | ok p =>
    simp only [moved_ok, Except.map]
    rw [Progress.tokens_relocate, hfilter]
    rfl

end Expander

end CPreprocessor
