import CPreprocessor.Expansion.Descent
import CPreprocessor.Expansion.Substitution
import CPreprocessor.Macro.Table

/-!
Macro expansion. The pending tokens are read from left to right. An invocation is replaced by its
filled template, which is then read again in front of the tokens that follow, so that a macro that
comes out of an expansion may take its arguments from there. A name that its own token hides is
painted and stays. Expansion ends for every table and all tokens (`acc_descent`).
-/

namespace CPreprocessor

/-- What an expansion needs to know: the macros, how deep it may nest, and which names stay as they
are. -/
structure Expander where
  table : Table
  limit : Int := 200
  frozen : List String := []

/-- An invocation that was found, with the tokens after it. -/
structure Invocation where
  definition : Definition
  site : Token
  arguments : List (List Token)
  hide : HideSet
  rest : List Token

namespace Invocation

def argument (i : Invocation) (index : Nat) : List Token := i.arguments[index]?.getD []

def error (i : Invocation) (fault : ExpansionFault) : ExpansionError :=
  ⟨i.definition.name, fault, i.site.location⟩

/-- The arguments that are expanded on their own, by the index of their parameter. -/
def expandedIndices (i : Invocation) : List Nat := Piece.expandedIndices i.definition.template

/-- The tokens that replace an invocation, given the expanded arguments. -/
def replacement (i : Invocation) (expanded : List (Nat × List Token)) :
    Except ExpansionError (List Token) :=
  let filling : Filling :=
    { written := i.argument
      expanded := fun index => (expanded.lookup index).getD []
      site := i.site.location }
  match filling.fill i.definition.template with
  | .error fault => .error (i.error fault)
  | .ok tokens => .ok (tokens.map fun t => t.hideBy i.hide)

end Invocation

/-- What happens to the first of the pending tokens. -/
inductive Turn
  | emit (t : Token)
  | invoke (i : Invocation)

/-- The value of `__FILE__` or `__LINE__` at a token. -/
def dynamicValue (t : Token) : Token :=
  let hide := t.hide.insert t.text
  if t.text = "__LINE__" then
    { t with kind := .number, text := toString t.location.line, hide }
  else
    { t with
      kind := .string
      text := String.ofList ('"' :: escapeQuotes t.location.file.toList ++ ['"'])
      hide }

namespace Expander

/-- The definition by which a token may be expanded. -/
def definition? (e : Expander) (t : Token) : Option Definition :=
  if t.isIdentifier && !t.painted && !e.frozen.contains t.text then e.table.lookup t.text else none

/-- The invocation of a function-like macro whose argument list follows. -/
def call (d : Definition) (t : Token) (rest : List Token) : Except ExpansionError Invocation :=
  match ArgumentList.read d.parameters.length d.isVariadic 0 [] [] (skipLayout rest).tail with
  | none => .error ⟨d.name, .unterminatedInvocation, t.location⟩
  | some list =>
    match ArgumentList.supply d list.arguments with
    | .error fault => .error ⟨d.name, fault, t.location⟩
    | .ok arguments =>
      .ok { definition := d, site := t, arguments,
            hide := (t.hide.inter list.closing.hide).insert t.text, rest := list.rest }

/-- What happens to the token `t` in front of `rest`. -/
def turn (e : Expander) (t : Token) (rest : List Token) : Except ExpansionError Turn :=
  match e.definition? t with
  | none => .ok (.emit t)
  | some d =>
    if t.text ∈ t.hide then .ok (.emit t.paint)
    else if d.builtin && Builtin.dynamicNames.contains t.text then .ok (.emit (dynamicValue t))
    else if !d.isFunction then
      .ok (.invoke
        { definition := d, site := t, arguments := [], hide := t.hide.insert t.text, rest })
    else if opensArguments rest then (call d t rest).map .invoke
    else .ok (.emit t)

/-- Whether an expansion `depth` arguments deep whose tokens hide `size` names nests too deeply. -/
def exceeds (e : Expander) (depth size : Nat) : Bool := e.limit < depth || e.limit < size

def tooDeep (e : Expander) (i : Invocation) : ExpansionError :=
  ⟨i.site.text, .recursionLimit e.limit, i.site.location⟩

end Expander

/-- What an expansion has produced: the finished tokens and the macros it invoked, both last first.
-/
structure Progress where
  output : List Token := []
  trace : List String := []

namespace Progress

def emit (p : Progress) (t : Token) : Progress := { p with output := t :: p.output }

/-- Takes over an invocation, with the expansions of its arguments. -/
def invoke (p : Progress) (name : String) (inner : List Progress) : Progress :=
  { p with trace := (inner.map Progress.trace).reverse.flatten ++ name :: p.trace }

/-- The finished tokens in order. -/
def tokens (p : Progress) : List Token := p.output.reverse

end Progress

/-! ## Every step descends -/

theorem Token.hide_withoutNewline (t : Token) : t.withoutNewline.hide = t.hide := by
  unfold Token.withoutNewline
  split <;> rfl

def hides (tokens : List Token) : List HideSet := tokens.map Token.hide

theorem hides_trimLayout_sublist (tokens : List Token) :
    (hides (trimLayout tokens)).Sublist (hides tokens) := by
  refine List.Sublist.map _ ?_
  have h := (List.dropWhile_sublist Token.isLayout (l := (skipLayout tokens).reverse)).reverse
  rw [List.reverse_reverse] at h
  exact h.trans (List.dropWhile_sublist _)

theorem ArgumentList.hides_read {named : Nat} {variadic : Bool} {pending : List Token}
    {list : ArgumentList} {depth : Nat} {done : List (List Token)} {current : List Token}
    (h : read named variadic depth done current pending = some list) :
    ∃ taken, hides pending = taken ++ list.closing.hide :: hides list.rest ∧
      ∀ a ∈ list.arguments, (∃ b ∈ done, a = trimLayout b) ∨
        (hides a).Sublist (hides current ++ taken) := by
  fun_induction read named variadic depth done current pending with
  | case1 => simp at h
  | case2 depth done current t ts _ ih =>
    obtain ⟨taken, htaken, hargs⟩ := ih h
    refine ⟨t.hide :: taken, by simp_all [hides], fun a ha => ?_⟩
    simpa [hides] using hargs a ha
  | case3 done current t ts =>
    simp only [Option.some.injEq] at h
    subst h
    refine ⟨[], by simp [hides], fun a ha => ?_⟩
    simp only [List.map_append, List.map_cons, List.map_nil, List.mem_append, List.mem_map,
      List.mem_singleton] at ha
    rcases ha with ⟨b, hb, rfl⟩ | rfl
    · exact .inl ⟨b, hb, rfl⟩
    · exact .inr (by simpa using hides_trimLayout_sublist current)
  | case4 depth done current t ts _ _ _ ih =>
    obtain ⟨taken, htaken, hargs⟩ := ih h
    refine ⟨t.hide :: taken, by simp_all [hides], fun a ha => ?_⟩
    simpa [hides] using hargs a ha
  | case5 depth done current t ts _ _ _ ih =>
    obtain ⟨taken, htaken, hargs⟩ := ih h
    refine ⟨t.hide :: taken, by simp_all [hides], fun a ha => ?_⟩
    rcases hargs a ha with ⟨b, hb, rfl⟩ | hsub
    · rcases List.mem_append.1 hb with hb | hb
      · exact .inl ⟨b, hb, rfl⟩
      · rw [List.mem_singleton] at hb
        subst hb
        exact .inr ((hides_trimLayout_sublist b).trans (List.sublist_append_left _ _))
    · refine .inr (hsub.trans ?_)
      simp only [hides, List.map_nil, List.nil_append]
      exact (List.sublist_cons_self ..).trans (List.sublist_append_right _ _)
  | case6 depth done current t ts _ _ _ ih =>
    obtain ⟨taken, htaken, hargs⟩ := ih h
    refine ⟨t.hide :: taken, by simp_all [hides], fun a ha => ?_⟩
    simpa [hides, Token.hide_withoutNewline] using hargs a ha

theorem ArgumentList.mem_of_supply {d : Definition} {found arguments : List (List Token)}
    (h : supply d found = .ok arguments) : ∀ a ∈ arguments, a ∈ found ∨ a = [] := by
  unfold supply at h
  dsimp only at h
  intro a ha
  split at h
  · obtain rfl : [] = arguments := by simpa using h
    simp at ha
  · split at h
    · obtain rfl : found ++ [[]] = arguments := by simpa using h
      simpa using ha
    · split at h
      · obtain rfl : found = arguments := by simpa using h
        exact .inl ha
      · simp at h

namespace Invocation

/-- What an invocation found at `t` in front of `rest` has to do with them: it is fresh, its
arguments are part of what it takes from `rest`, and what replaces it hides at least what the tokens
at both its ends do. -/
structure Found (names : List String) (t : Token) (rest : List Token) (i : Invocation) : Prop where
  mem : t.text ∈ names
  fresh : t.text ∉ t.hide
  site : i.site = t
  extent :
    (i.rest = rest ∧ i.arguments = [] ∧ i.hide = t.hide.insert t.text) ∨
    ∃ taken closing, hides rest = taken ++ closing :: hides i.rest ∧
      i.hide = (t.hide.inter closing).insert t.text ∧
      ∀ a ∈ i.arguments, (hides a).Sublist (hides rest)

theorem Found.argument_descends {names : List String} {t : Token} {rest : List Token}
    {i : Invocation} (h : i.Found names t rest) (index : Nat) :
    Descent names (hides (i.argument index)) (hides (t :: rest)) := by
  refine .drop ?_
  unfold argument
  cases ha : i.arguments[index]? with
  | none => exact List.nil_sublist _
  | some a =>
    have hmem := List.mem_of_getElem? ha
    rcases h.extent with ⟨_, hnil, _⟩ | ⟨_, _, _, _, hargs⟩
    · rw [hnil] at hmem; simp at hmem
    · exact hargs a hmem

theorem hide_of_replacement {i : Invocation} {expanded : List (Nat × List Token)}
    {body : List Token} (hbody : i.replacement expanded = .ok body) :
    ∀ b ∈ hides body, ∀ x, x ∈ i.hide → x ∈ b := by
  unfold replacement at hbody
  simp only at hbody
  split at hbody
  · simp at hbody
  · simp only [Except.ok.injEq] at hbody
    subst hbody
    intro b hb x hx
    simp only [hides, List.map_map, List.mem_map] at hb
    obtain ⟨u, _, rfl⟩ := hb
    simp [Token.hideBy, hx]

theorem Found.descends {names : List String} {t : Token} {rest : List Token} {i : Invocation}
    (h : i.Found names t rest) {body : List Token}
    (hhide : ∀ b ∈ hides body, ∀ x, x ∈ i.hide → x ∈ b) :
    Descent names (hides (body ++ i.rest)) (hides (t :: rest)) := by
  have happ : hides (body ++ i.rest) = hides body ++ hides i.rest := by simp [hides]
  rw [happ]
  rcases h.extent with ⟨hrest, _, hset⟩ | ⟨taken, closing, hrest, hset, _⟩
  · rw [hrest]
    exact .object h.mem h.fresh fun b hb =>
      ⟨hhide b hb _ (by simp [hset]), fun x hx => hhide b hb x (by simp [hset, hx])⟩
  · have : hides (t :: rest) = t.hide :: (taken ++ closing :: hides i.rest) := by
      rw [← hrest]; rfl
    rw [this]
    exact .call h.mem h.fresh fun b hb =>
      ⟨hhide b hb _ (by simp [hset]), fun x hx hy => hhide b hb x (by simp [hset, hx, hy])⟩

theorem Found.replacement_descends {names : List String} {t : Token} {rest : List Token}
    {i : Invocation} (h : i.Found names t rest) {expanded : List (Nat × List Token)}
    {body : List Token} (hbody : i.replacement expanded = .ok body) :
    Descent names (hides (body ++ i.rest)) (hides (t :: rest)) :=
  h.descends (hide_of_replacement hbody)

end Invocation

theorem Table.mem_names_of_lookup {t : Table} {name : String} {d : Definition}
    (h : t.lookup name = some d) : name ∈ t.names := by
  have hname := List.find?_some h
  simp only [decide_eq_true_eq] at hname
  exact List.mem_map.2 ⟨d, List.mem_of_find?_eq_some h, hname⟩

theorem Expander.found_of_turn {e : Expander} {t : Token} {rest : List Token} {i : Invocation}
    (h : e.turn t rest = .ok (.invoke i)) : i.Found e.table.names t rest := by
  unfold turn at h
  split at h
  · simp at h
  · rename_i d hd
    have hmem : t.text ∈ e.table.names := by
      unfold definition? at hd
      split at hd
      · exact Table.mem_names_of_lookup hd
      · simp at hd
    split at h
    · simp at h
    · rename_i hfresh
      split at h
      · simp at h
      · split at h
        · simp only [Except.ok.injEq, Turn.invoke.injEq] at h
          subst h
          exact ⟨hmem, hfresh, rfl, .inl ⟨rfl, rfl, rfl⟩⟩
        · split at h
          · unfold call at h
            split at h
            · simp [Except.map] at h
            · rename_i list hlist
              split at h
              · simp [Except.map] at h
              · rename_i arguments harguments
                simp only [Except.map, Except.ok.injEq, Turn.invoke.injEq] at h
                subst h
                obtain ⟨taken, htaken, hargs⟩ := ArgumentList.hides_read hlist
                have htail : ∃ above, hides rest = above ++ hides (skipLayout rest).tail := by
                  have h₁ : rest = rest.takeWhile Token.isLayout ++ skipLayout rest :=
                    (List.takeWhile_append_dropWhile ..).symm
                  cases hs : skipLayout rest with
                  | nil =>
                    refine ⟨hides rest, by simp [hides]⟩
                  | cons u us =>
                    rw [hs] at h₁
                    refine ⟨hides (rest.takeWhile Token.isLayout ++ [u]), ?_⟩
                    conv => lhs; rw [h₁]
                    simp [hides]
                obtain ⟨above, habove⟩ := htail
                refine ⟨hmem, hfresh, rfl, .inr ⟨above ++ taken, list.closing.hide, ?_, rfl, ?_⟩⟩
                · rw [habove, htaken, List.append_assoc]
                · intro a ha
                  rcases ArgumentList.mem_of_supply harguments a ha with ha | rfl
                  · rcases hargs a ha with ⟨b, hb, _⟩ | hsub
                    · simp at hb
                    · refine hsub.trans ?_
                      rw [habove, htaken]
                      simp only [hides, List.map_nil, List.nil_append]
                      exact (List.sublist_append_left _ _).trans (List.sublist_append_right _ _)
                  · exact List.nil_sublist _
          · simp at h

/-! ## Expansion -/

namespace Expander

/-- Expands the pending tokens of an argument `depth` levels deep, on top of what was done before.
-/
def run (e : Expander) (depth : Nat) (done : Progress) (pending : List Token) :
    Except ExpansionError Progress :=
  match pending with
  | [] => .ok done
  | t :: rest =>
    match _hturn : e.turn t rest with
    | .error error => .error error
    | .ok (.emit u) => e.run depth (done.emit u) rest
    | .ok (.invoke i) =>
      if e.exceeds depth i.hide.size then .error (e.tooDeep i)
      else
        let inner := i.expandedIndices.mapM fun index =>
          if e.exceeds (depth + 1) 0 then .error (e.tooDeep i)
          else e.run (depth + 1) {} (i.argument index)
        match inner with
        | .error error => .error error
        | .ok inner =>
          match _hbody : i.replacement (i.expandedIndices.zip (inner.map Progress.tokens)) with
          | .error error => .error error
          | .ok body => e.run depth (done.invoke i.site.text inner) (body ++ i.rest)
termination_by (⟨e.table.names, hides pending⟩ : Workload)
decreasing_by
  · exact ⟨trivial, .drop (List.Sublist.refl _)⟩
  · exact ⟨trivial, (found_of_turn _hturn).argument_descends index⟩
  · exact ⟨trivial, (found_of_turn _hturn).replacement_descends _hbody⟩

/-- The outcome of an expansion: the tokens, and the macros in the order of their invocation. -/
structure Expansion where
  tokens : List Token
  trace : List String

/-- Expands all invocations in a list of tokens. -/
def expand (e : Expander) (tokens : List Token) : Except ExpansionError Expansion :=
  (e.run 0 {} (tokens.filter fun t => t.kind ≠ .endOfInput)).map fun p =>
    { tokens := p.tokens.filter fun t => t.kind ≠ .placemarker, trace := p.trace.reverse }

end Expander

end CPreprocessor
