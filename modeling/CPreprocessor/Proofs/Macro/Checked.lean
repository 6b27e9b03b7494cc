import CPreprocessor.Macro.Definition
import CPreprocessor.Proofs.Except

/-!
# Checked definitions

`Definition.parseChecked` reads a definition by positions in the tokens after `#define`: it looks at
the token at a position, at the first or the last token of a list, or at the one behind another, and
stops where there is none. There always is one, and what is read is what `Definition.parse` reads from
the tokens themselves (`Definition.parseChecked_eq`).
-/

namespace CPreprocessor

namespace Definition

variable {ε α : Type} {tokens : List Token} {t last : Token} {seen parameters : List String}
  {pos : Nat}

/-! ## Layout -/

/-- The position of the first token from `pos` on that is not layout, or that of the end. -/
def skipLayoutAt (tokens : List Token) (pos : Nat) : Except (Stop ε) Nat :=
  if pos < tokens.length then
    match found tokens[pos]? with
    | .error stop => .error stop
    | .ok t => if t.isLayout then skipLayoutAt tokens (pos + 1) else .ok pos
  else .ok pos
termination_by tokens.length - pos

/-- Where the layout ends that stands at a position. -/
def behindLayout (tokens : List Token) (pos : Nat) : Nat :=
  pos + ((tokens.drop pos).takeWhile Token.isLayout).length

theorem skipLayoutAt_eq (tokens : List Token) (pos : Nat) :
    (skipLayoutAt tokens pos : Except (Stop ε) Nat) = .ok (behindLayout tokens pos) := by
  fun_induction skipLayoutAt (ε := ε) tokens pos with
  | case1 pos hlt stop hfound =>
    rw [found_getElem? hlt] at hfound
    cases hfound
  | case2 pos hlt t hfound hlayout ih =>
    rw [found_getElem? hlt] at hfound
    cases hfound
    rw [ih, behindLayout, behindLayout, List.drop_eq_getElem_cons hlt,
      List.takeWhile_cons_of_pos hlayout, List.length_cons, Nat.add_right_comm, Nat.add_assoc]
  | case3 pos hlt t hfound hlayout =>
    rw [found_getElem? hlt] at hfound
    cases hfound
    rw [behindLayout, List.drop_eq_getElem_cons hlt, List.takeWhile_cons_of_neg hlayout]
    rfl
  | case4 pos hlt =>
    rw [behindLayout, List.drop_eq_nil_of_le (Nat.le_of_not_lt hlt)]
    rfl

theorem le_behindLayout (tokens : List Token) (pos : Nat) : pos ≤ behindLayout tokens pos :=
  Nat.le_add_right _ _

theorem drop_behindLayout (tokens : List Token) (pos : Nat) :
    tokens.drop (behindLayout tokens pos) = skipLayout (tokens.drop pos) := by
  rw [behindLayout, ← List.drop_drop, skipLayout]
  generalize tokens.drop pos = rest
  induction rest with
  | nil => rfl
  | cons t rest ih =>
    rw [List.takeWhile_cons, List.dropWhile_cons]
    split
    · exact ih
    · rfl

/-! ## Parameters -/

/-- The fault of a parameter list without its `)`, at the last token. -/
def openParametersAt (tokens : List Token) : Except (Stop (Located DefinitionFault)) α := do
  if tokens.isEmpty then .error (.raised ⟨.openParameters, none⟩)
  else
    let last ← found tokens.getLast?
    .error (.raised ⟨.openParameters, last.location⟩)

/-- A parameter from a position on: its name, whether it collects, and the position behind it. -/
def parameterAt (tokens : List Token) (seen : List String) (pos : Nat) :
    Except (Stop (Located DefinitionFault)) (String × Bool × Nat) := do
  if tokens.length ≤ pos then openParametersAt tokens
  else
    let t ← found tokens[pos]?
    if t.isPunctuator "..." then .ok (variadicName, true, pos + 1)
    else if t.isIdentifier then
      if t.text = variadicName then .error (.raised ⟨.reservedParameter, t.location⟩)
      else if seen.contains t.text then .error (.raised ⟨.duplicateParameter t.text, t.location⟩)
      else
        let next ← skipLayoutAt tokens (pos + 1)
        if next < tokens.length then
          let dots ← found tokens[next]?
          if dots.isPunctuator "..." then .ok (t.text, true, next + 1) else .ok (t.text, false, next)
        else .ok (t.text, false, next)
    else .error (.raised ⟨.expectedParameter t.text, t.location⟩)

theorem openParametersAt_eq (h : tokens.getLast? = some last) :
    (openParametersAt tokens : Except (Stop (Located DefinitionFault)) α) =
      .error (.raised ⟨.openParameters, last.location⟩) := by
  have hempty : tokens.isEmpty = false := by
    cases tokens with
    | nil => cases h
    | cons t tokens => rfl
  rw [openParametersAt, hempty, h]
  rfl

/-- What was read up to a position, with the tokens that are left there. -/
def leaving (tokens : List Token) (read : α × Bool × Nat) : α × Bool × List Token :=
  (read.1, read.2.1, tokens.drop read.2.2)

theorem parameterAt_end (hlast : tokens.getLast? = some last) (h : tokens.length ≤ pos) :
    parameterAt tokens seen pos = .error (.raised ⟨.openParameters, last.location⟩) := by
  rw [parameterAt, if_pos h, openParametersAt_eq hlast]

theorem parameterAt_eq (seen : List String) (h : pos < tokens.length) :
    (parameterAt tokens seen pos).map (leaving tokens) =
      raising (parameter seen tokens[pos] (tokens.drop (pos + 1))) := by
  rw [parameterAt, if_neg (Nat.not_le_of_lt h), found_getElem? h, ok_bind, parameter]
  split
  · rfl
  split
  · split
    · rfl
    split
    · rfl
    rw [skipLayoutAt_eq, ok_bind, ← drop_behindLayout]
    split
    · rename_i hnext
      rw [found_getElem? hnext, ok_bind, List.drop_eq_getElem_cons hnext]
      dsimp only
      split
      · rfl
      · exact congrArg (fun rest => Except.ok (_, false, rest)) (List.drop_eq_getElem_cons hnext)
    · rename_i hnext
      rw [List.drop_eq_nil_of_le (Nat.le_of_not_lt hnext)]
      exact congrArg (fun rest => Except.ok (_, false, rest))
        (List.drop_eq_nil_of_le (Nat.le_of_not_lt hnext))
  · rfl

theorem openParametersAt_ne_ok (a : α) : openParametersAt tokens ≠ .ok a := by
  unfold openParametersAt
  split
  · exact nofun
  · cases tokens.getLast? with
    | none => exact nofun
    | some last => exact nofun

theorem lt_of_parameterAt {name : String} {variadic : Bool} {next : Nat}
    (h : parameterAt tokens seen pos = .ok (name, variadic, next)) : pos < next := by
  have hlayout := le_behindLayout tokens (pos + 1)
  unfold parameterAt at h
  split at h
  · exact absurd h (openParametersAt_ne_ok _)
  rename_i hpos
  rw [found_getElem? (Nat.lt_of_not_le hpos), ok_bind, skipLayoutAt_eq, ok_bind] at h
  split at h
  · cases h
    exact Nat.lt_succ_self pos
  split at h
  · split at h
    · cases h
    split at h
    · cases h
    split at h
    · rename_i hnext
      rw [found_getElem? hnext, ok_bind] at h
      split at h
      · cases h
        omega
      · cases h
        omega
    · cases h
      omega
  · cases h

/-- A parameter list from a parameter on: the parameters, those in `seen` first, whether the last one
collects, and the position behind the list. -/
def parameterListAt (tokens : List Token) (seen : List String) (pos : Nat) :
    Except (Stop (Located DefinitionFault)) (List String × Bool × Nat) :=
  match _hskip : skipLayoutAt tokens pos with
  | .error stop => .error stop
  | .ok start =>
    match _hparameter : parameterAt tokens seen start with
    | .error stop => .error stop
    | .ok (name, variadic, next) =>
      match _hnext : skipLayoutAt tokens next with
      | .error stop => .error stop
      | .ok mark =>
        if tokens.length ≤ mark then openParametersAt tokens
        else
          match found tokens[mark]? with
          | .error stop => .error stop
          | .ok separator =>
            if separator.isPunctuator ")" then .ok (seen ++ [name], variadic, mark + 1)
            else if separator.isPunctuator "," && !variadic then
              parameterListAt tokens (seen ++ [name]) (mark + 1)
            else .error (.raised ⟨.expectedSeparator variadic separator.text, separator.location⟩)
termination_by tokens.length - pos
decreasing_by
  have h₁ := le_behindLayout tokens pos
  have h₂ := lt_of_parameterAt _hparameter
  have h₃ := le_behindLayout tokens next
  rw [skipLayoutAt_eq] at _hskip _hnext
  cases _hskip
  cases _hnext
  omega

/-- The parameter list after a `(`, which may be empty. -/
def parameterClauseAt (tokens : List Token) (pos : Nat) :
    Except (Stop (Located DefinitionFault)) (List String × Bool × Nat) := do
  let start ← skipLayoutAt tokens pos
  if start < tokens.length then
    let t ← found tokens[start]?
    if t.isPunctuator ")" then .ok ([], false, start + 1) else parameterListAt tokens [] start
  else parameterListAt tokens [] start

theorem parameterList_nil (last : Location) (seen : List String) (h : skipLayout tokens = []) :
    parameterList last seen tokens = .error ⟨.openParameters, last⟩ := by
  rw [parameterList]
  split
  · rfl
  · rename_i heq
    rw [h] at heq
    cases heq

theorem parameterList_cons (last : Location) (seen : List String) {rest : List Token}
    (h : skipLayout tokens = t :: rest) :
    parameterList last seen tokens =
      match parameter seen t rest with
      | .error fault => .error fault
      | .ok (name, variadic, after) =>
        match skipLayout after with
        | [] => .error ⟨.openParameters, last⟩
        | separator :: tail =>
          if separator.isPunctuator ")" then .ok (seen ++ [name], variadic, tail)
          else if separator.isPunctuator "," && !variadic then
            parameterList last (seen ++ [name]) tail
          else .error ⟨.expectedSeparator variadic separator.text, separator.location⟩ := by
  rw [parameterList]
  split
  · rename_i heq
    rw [h] at heq
    cases heq
  · rename_i heq
    rw [h] at heq
    cases heq
    split
    · rename_i hparameter
      rw [hparameter]
    · rename_i hparameter
      rw [hparameter]
      dsimp only
      split
      · rename_i hafter
        rw [hafter]
      · rename_i hafter
        rw [hafter]

/-- What a parameter list that goes on with a parameter at a position does behind that. -/
theorem parameterList_of_parameterAt (hlast : tokens.getLast? = some last) {name : String}
    {variadic : Bool} {start next mark : Nat}
    (hskip : (skipLayoutAt tokens pos : Except (Stop ε) Nat) = .ok start)
    (h : parameterAt tokens seen start = .ok (name, variadic, next))
    (hnext : (skipLayoutAt tokens next : Except (Stop ε) Nat) = .ok mark) :
    parameterList last.location seen (tokens.drop pos) =
      match tokens.drop mark with
      | [] => .error ⟨.openParameters, last.location⟩
      | separator :: tail =>
        if separator.isPunctuator ")" then .ok (seen ++ [name], variadic, tail)
        else if separator.isPunctuator "," && !variadic then
          parameterList last.location (seen ++ [name]) tail
        else .error ⟨.expectedSeparator variadic separator.text, separator.location⟩ := by
  rw [skipLayoutAt_eq] at hskip hnext
  cases hskip
  cases hnext
  by_cases hlt : behindLayout tokens pos < tokens.length
  · have hstart := (drop_behindLayout tokens pos).symm.trans (List.drop_eq_getElem_cons hlt)
    have hread := parameterAt_eq seen hlt
    rw [h] at hread
    rw [parameterList_cons _ _ hstart, raising_eq_ok_iff.mp hread.symm, drop_behindLayout]
    rfl
  · rw [parameterAt_end hlast (Nat.le_of_not_lt hlt)] at h
    cases h

theorem parameterListAt_eq (hlast : tokens.getLast? = some last) (seen : List String) (pos : Nat) :
    (parameterListAt tokens seen pos).map (leaving tokens) =
      raising (parameterList last.location seen (tokens.drop pos)) := by
  fun_induction parameterListAt tokens seen pos with
  | case1 seen pos stop hskip =>
    rw [skipLayoutAt_eq] at hskip
    cases hskip
  | case2 seen pos start hskip stop hparameter =>
    rw [skipLayoutAt_eq] at hskip
    cases hskip
    have hdrop := (drop_behindLayout tokens pos).symm
    by_cases hlt : behindLayout tokens pos < tokens.length
    · have hread := parameterAt_eq seen hlt
      rw [hparameter] at hread
      obtain ⟨fault, hfault, rfl⟩ := raising_eq_error_iff.mp hread.symm
      rw [parameterList_cons _ _ (hdrop.trans (List.drop_eq_getElem_cons hlt)), hfault]
      rfl
    · have hend := Nat.le_of_not_lt hlt
      rw [parameterAt_end hlast hend] at hparameter
      cases hparameter
      rw [parameterList_nil _ _ (hdrop.trans (List.drop_eq_nil_of_le hend))]
      rfl
  | case3 seen pos start hskip name variadic next hparameter stop hnext =>
    rw [skipLayoutAt_eq] at hnext
    cases hnext
  | case4 seen pos start hskip name variadic next hparameter mark hnext hend =>
    rw [parameterList_of_parameterAt hlast hskip hparameter hnext, List.drop_eq_nil_of_le hend,
      openParametersAt_eq hlast]
    rfl
  | case5 seen pos start hskip name variadic next hparameter mark hnext hend stop hfound =>
    rw [found_getElem? (Nat.lt_of_not_le hend)] at hfound
    cases hfound
  | case6 seen pos start hskip name variadic next hparameter mark hnext hend separator hfound hclose =>
    have hmark := Nat.lt_of_not_le hend
    rw [found_getElem? hmark] at hfound
    cases hfound
    rw [parameterList_of_parameterAt hlast hskip hparameter hnext, List.drop_eq_getElem_cons hmark]
    dsimp only
    rw [if_pos hclose]
    rfl
  | case7 seen pos start hskip name variadic next hparameter mark hnext hend separator hfound hclose
      hcomma ih =>
    have hmark := Nat.lt_of_not_le hend
    rw [found_getElem? hmark] at hfound
    cases hfound
    rw [parameterList_of_parameterAt hlast hskip hparameter hnext, List.drop_eq_getElem_cons hmark]
    dsimp only
    rw [if_neg hclose, if_pos hcomma, ih]
  | case8 seen pos start hskip name variadic next hparameter mark hnext hend separator hfound hclose
      hcomma =>
    have hmark := Nat.lt_of_not_le hend
    rw [found_getElem? hmark] at hfound
    cases hfound
    rw [parameterList_of_parameterAt hlast hskip hparameter hnext, List.drop_eq_getElem_cons hmark]
    dsimp only
    rw [if_neg hclose, if_neg hcomma]
    rfl

theorem parameterClauseAt_eq (hlast : tokens.getLast? = some last) (pos : Nat) :
    (parameterClauseAt tokens pos).map (leaving tokens) =
      raising (parameterClause last.location (tokens.drop pos)) := by
  rw [parameterClauseAt, skipLayoutAt_eq, ok_bind, parameterClause, ← drop_behindLayout]
  have hlist := parameterListAt_eq hlast [] (behindLayout tokens pos)
  split
  · rename_i hlt
    rw [found_getElem? hlt, ok_bind]
    rw [List.drop_eq_getElem_cons hlt] at hlist ⊢
    dsimp only
    split
    · rfl
    · exact hlist
  · rename_i hlt
    rw [hlist, List.drop_eq_nil_of_le (Nat.le_of_not_lt hlt), parameterList_nil _ _ rfl]

/-- The shape of a macro whose name ends at a position, and the position behind it. -/
def shapeAt (tokens : List Token) (pos : Nat) :
    Except (Stop (Located DefinitionFault)) (Shape × Nat) := do
  if pos < tokens.length then
    let t ← found tokens[pos]?
    if t.isPunctuator "(" then
      let (parameters, variadic, next) ← parameterClauseAt tokens (pos + 1)
      .ok (.function parameters variadic, next)
    else .ok (.object, pos)
  else .ok (.object, pos)

theorem shapeAt_eq (hlast : tokens.getLast? = some last) (pos : Nat) :
    (shapeAt tokens pos).map (fun (shape, next) => (shape, tokens.drop next)) =
      raising (shapeOf last.location (tokens.drop pos)) := by
  unfold shapeAt
  split
  · rename_i hlt
    rw [found_getElem? hlt, ok_bind, List.drop_eq_getElem_cons hlt, shapeOf]
    split
    · have hclause := parameterClauseAt_eq hlast (pos + 1)
      cases hread : parameterClause last.location (tokens.drop (pos + 1)) with
      | error fault =>
        rw [hread] at hclause
        rw [map_eq_error_iff.mp hclause]
        rfl
      | ok read =>
        rw [hread] at hclause
        obtain ⟨⟨parameters, variadic, next⟩, hnext, rfl⟩ := map_eq_ok_iff.mp hclause
        rw [hnext]
        rfl
    · exact congrArg (fun rest => Except.ok (Shape.object, rest)) (List.drop_eq_getElem_cons hlt)
  · rename_i hlt
    have hend := List.drop_eq_nil_of_le (Nat.le_of_not_lt hlt)
    rw [hend]
    exact congrArg (fun rest => Except.ok (Shape.object, rest)) hend

/-! ## Replacement lists -/

/-- A replacement list with one token more. Layout is one blank, and none at the start. -/
def appendChecked (replacement : List Token) (t : Token) : Except (Stop ε) (List Token) := do
  if t.isLayout then
    if replacement.isEmpty then .ok replacement
    else
      let last ← found replacement.getLast?
      .ok (if last.kind = .whitespace then replacement else replacement ++ [.blank t.location])
  else .ok (replacement ++ [t])

/-- A replacement list without the blanks at its end. -/
def trimChecked (replacement : List Token) : Except (Stop ε) (List Token) :=
  if _h : replacement = [] then .ok []
  else
    match found replacement.getLast? with
    | .error stop => .error stop
    | .ok last =>
      if last.kind = .whitespace then trimChecked replacement.dropLast else .ok replacement
termination_by replacement.length
decreasing_by
  rw [List.length_dropLast]
  exact Nat.sub_one_lt (mt List.length_eq_zero_iff.mp _h)

def normaliseChecked (tokens : List Token) : Except (Stop ε) (List Token) := do
  trimChecked (← tokens.foldlM appendChecked [])

/-- The first `#` from a position on that has no parameter after it. -/
def strayStringizeAt (parameters : List String) (tokens : List Token) (pos : Nat) :
    Except (Stop ε) (Option Token) :=
  if pos < tokens.length then
    match found tokens[pos]? with
    | .error stop => .error stop
    | .ok t =>
      if !t.isPunctuator "#" then strayStringizeAt parameters tokens (pos + 1)
      else if pos + 1 < tokens.length then
        match found tokens[pos + 1]? with
        | .error stop => .error stop
        | .ok next =>
          if next.isIdentifier && parameters.contains next.text then
            strayStringizeAt parameters tokens (pos + 1)
          else .ok (some t)
      else .ok (some t)
  else .ok none
termination_by tokens.length - pos

def operatorFaultChecked (shape : Shape) (replacement : List Token) :
    Except (Stop ε) (Option (Located DefinitionFault)) := do
  let tokens := significant replacement
  if tokens.isEmpty then .ok none
  else
    let first ← found tokens.head?
    let last ← found tokens.getLast?
    match [first, last].find? (·.isPunctuator "##") with
    | some edge => .ok (some ⟨.pasteAtEnd, edge.location⟩)
    | none =>
      match shape with
      | .object => .ok none
      | .function parameters _ =>
        (strayStringizeAt parameters tokens 0).map
          (Option.map fun t => ⟨.stringizeNonParameter, t.location⟩)

theorem trimChecked_of_getLast? (hlast : tokens.getLast? = some last) :
    (trimChecked tokens : Except (Stop ε) (List Token)) =
      if last.kind = .whitespace then trimChecked tokens.dropLast else .ok tokens := by
  have hne : tokens ≠ [] := by
    rintro rfl
    cases hlast
  rw [trimChecked, dif_neg hne, hlast]
  rfl

theorem kind_ne_of_not_isLayout (h : t.isLayout = false) : t.kind ≠ .whitespace := by
  intro hkind
  rw [Token.isLayout, hkind] at h
  cases h

theorem appendChecked_layout {acc : List Token} (hlast : acc.getLast? = some last)
    (hlayout : last.isLayout = false) (ht : t.isLayout = true) (gap : Option Location) :
    (appendChecked (acc ++ (gap.map Token.blank).toList) t : Except (Stop ε) (List Token)) =
      .ok (acc ++ ((gap <|> some t.location).map Token.blank).toList) := by
  have hempty : (acc ++ (gap.map Token.blank).toList).isEmpty = false := by
    cases acc with
    | nil => cases hlast
    | cons t acc => rfl
  rw [appendChecked, if_pos ht, hempty, if_neg nofun]
  cases gap with
  | none =>
    rw [Option.map_none, Option.toList_none, List.append_nil, hlast]
    exact congrArg Except.ok (if_neg (kind_ne_of_not_isLayout hlayout))
  | some location =>
    rw [Option.map_some, Option.toList_some, List.getLast?_concat]
    rfl

/-- The layout that stands in front of the tokens that are left is in the list already. -/
theorem foldlM_appendChecked (acc : List Token) (hlast : acc.getLast? = some last)
    (hlayout : last.isLayout = false) (gap : Option Location) (tokens : List Token) :
    (tokens.foldlM appendChecked (acc ++ (gap.map Token.blank).toList) >>= trimChecked :
      Except (Stop ε) (List Token)) = .ok (acc ++ normalise gap tokens) := by
  induction tokens generalizing acc last gap with
  | nil =>
    have htrim : (trimChecked acc : Except (Stop ε) (List Token)) = .ok acc := by
      rw [trimChecked_of_getLast? hlast, if_neg (kind_ne_of_not_isLayout hlayout)]
    rw [normalise, List.append_nil, List.foldlM_nil]
    change trimChecked _ = _
    cases gap with
    | none => rwa [Option.map_none, Option.toList_none, List.append_nil]
    | some location =>
      rw [Option.map_some, Option.toList_some, trimChecked_of_getLast? List.getLast?_concat,
        List.dropLast_concat, htrim]
      rfl
  | cons t tokens ih =>
    rw [List.foldlM_cons, normalise]
    by_cases ht : t.isLayout = true
    · rw [appendChecked_layout hlast hlayout ht, ok_bind, if_pos ht]
      exact ih acc hlast hlayout _
    · have hnext := ih (acc ++ (gap.map Token.blank).toList ++ [t]) List.getLast?_concat
        (Bool.not_eq_true _ |>.mp ht) none
      rw [Option.map_none, Option.toList_none, List.append_nil] at hnext
      rw [appendChecked, if_neg ht, ok_bind, if_neg ht, hnext]
      simp only [List.append_assoc, List.singleton_append]

theorem normaliseChecked_eq (tokens : List Token) :
    (normaliseChecked (skipLayout tokens) : Except (Stop ε) (List Token)) =
      .ok (normalise none (skipLayout tokens)) := by
  cases hskip : skipLayout tokens with
  | nil =>
    rw [normaliseChecked, List.foldlM_nil]
    change trimChecked [] = _
    rw [trimChecked]
    exact dif_pos rfl
  | cons t rest =>
    have ht : t.isLayout = false := by
      have hhead := List.head?_dropWhile_not Token.isLayout tokens
      rw [← skipLayout, hskip] at hhead
      exact hhead
    have hrest := foldlM_appendChecked (ε := ε) [t] rfl ht none rest
    rw [normaliseChecked, List.foldlM_cons, appendChecked, if_neg (by rw [ht]; nofun), ok_bind,
      normalise, if_neg (by rw [ht]; nofun)]
    exact hrest

theorem strayStringizeAt_eq (parameters : List String) (tokens : List Token) (pos : Nat) :
    (strayStringizeAt parameters tokens pos : Except (Stop ε) (Option Token)) =
      .ok (strayStringize? parameters (tokens.drop pos)) := by
  fun_induction strayStringizeAt (ε := ε) parameters tokens pos with
  | case1 pos hlt stop hfound =>
    rw [found_getElem? hlt] at hfound
    cases hfound
  | case2 pos hlt t hfound hmark ih =>
    rw [found_getElem? hlt] at hfound
    cases hfound
    rw [Bool.not_eq_true'] at hmark
    rw [ih, List.drop_eq_getElem_cons hlt, strayStringize?, hmark, Bool.false_and, if_neg nofun]
  | case3 pos hlt t hfound hmark hnext stop hfollowing =>
    rw [found_getElem? hnext] at hfollowing
    cases hfollowing
  | case4 pos hlt t hfound hmark hnext following hfollowing hparameter ih =>
    rw [found_getElem? hlt] at hfound
    cases hfound
    rw [found_getElem? hnext] at hfollowing
    cases hfollowing
    rw [ih, List.drop_eq_getElem_cons hlt, strayStringize?, List.drop_eq_getElem_cons hnext,
      List.head?_cons, Option.any_some, hparameter, Bool.not_true, Bool.and_false, if_neg nofun]
  | case5 pos hlt t hfound hmark hnext following hfollowing hparameter =>
    rw [found_getElem? hlt] at hfound
    cases hfound
    rw [found_getElem? hnext] at hfollowing
    cases hfollowing
    rw [Bool.not_eq_true, Bool.not_eq_false'] at hmark
    rw [Bool.not_eq_true] at hparameter
    rw [List.drop_eq_getElem_cons hlt, strayStringize?, List.drop_eq_getElem_cons hnext,
      List.head?_cons, Option.any_some, hparameter, hmark]
    rfl
  | case6 pos hlt t hfound hmark hnext =>
    rw [found_getElem? hlt] at hfound
    cases hfound
    rw [Bool.not_eq_true, Bool.not_eq_false'] at hmark
    rw [List.drop_eq_getElem_cons hlt, strayStringize?,
      List.drop_eq_nil_of_le (Nat.le_of_not_lt hnext), hmark]
    rfl
  | case7 pos hlt =>
    rw [List.drop_eq_nil_of_le (Nat.le_of_not_lt hlt), strayStringize?]

theorem operatorFaultChecked_eq (shape : Shape) (replacement : List Token) :
    (operatorFaultChecked shape replacement :
      Except (Stop ε) (Option (Located DefinitionFault))) =
        .ok (operatorFault? shape replacement) := by
  simp only [operatorFaultChecked, operatorFault?, strayStringizeAt_eq, List.drop_zero]
  cases hsignificant : significant replacement with
  | nil =>
    cases shape with
    | object => rfl
    | function parameters variadic => rfl
  | cons t rest =>
    rw [List.getLast?_eq_some_getLast (List.cons_ne_nil t rest)]
    simp only [List.isEmpty_cons, Bool.false_eq_true, if_false, List.head?_cons, found, ok_bind,
      Option.toList_some, List.singleton_append]
    cases List.find? (·.isPunctuator "##") [t, (t :: rest).getLast (List.cons_ne_nil t rest)] with
    | some edge => rfl
    | none =>
      cases shape with
      | object => rfl
      | function parameters variadic => rfl

/-! ## Definitions -/

/-- Reads a definition. -/
def parseChecked (tokens : List Token) (location : Option Location) (builtin : Bool) :
    Except (Stop (Located DefinitionFault)) Definition := do
  let start ← skipLayoutAt tokens 0
  if tokens.length ≤ start then .error (.raised ⟨.missingName, location⟩)
  else
    let name ← found tokens[start]?
    if !name.isIdentifier then .error (.raised ⟨.nameNotIdentifier, name.location⟩)
    else if name.text = "defined" then .error (.raised ⟨.reservedName, name.location⟩)
    else
      let (shape, pos) ← shapeAt tokens (start + 1)
      let body ← skipLayoutAt tokens pos
      let replacement ← normaliseChecked (tokens.drop body)
      match ← operatorFaultChecked shape replacement with
      | some fault => .error (.raised fault)
      | none => .ok { name := name.text, shape, replacement, location := name.location, builtin }

/-- Whatever tokens a definition is read from, all that is looked at is there. -/
theorem parseChecked_eq (tokens : List Token) (location : Option Location) (builtin : Bool) :
    parseChecked tokens location builtin = raising (parse tokens location builtin) := by
  have hdrop := drop_behindLayout tokens 0
  rw [List.drop_zero] at hdrop
  rw [parseChecked, skipLayoutAt_eq, ok_bind, parse, ← hdrop]
  by_cases hlt : behindLayout tokens 0 < tokens.length
  · have hlast := List.getLast?_eq_some_getLast (List.ne_nil_of_length_pos (Nat.zero_lt_of_lt hlt))
    rw [if_neg (Nat.not_le_of_lt hlt), found_getElem? hlt, ok_bind, List.drop_eq_getElem_cons hlt]
    dsimp only
    split
    · rfl
    split
    · rfl
    rw [List.getLastD_eq_getLast?, hlast, Option.getD_some]
    have hshape := shapeAt_eq hlast (behindLayout tokens 0 + 1)
    generalize (tokens.getLast _).location = last at hshape ⊢
    cases hread : shapeOf last (tokens.drop (behindLayout tokens 0 + 1)) with
    | error fault =>
      rw [hread] at hshape
      rw [map_eq_error_iff.mp hshape]
      rfl
    | ok read =>
      rw [hread] at hshape
      obtain ⟨⟨shape, pos⟩, hpos, rfl⟩ := map_eq_ok_iff.mp hshape
      simp only [hpos, ok_bind, skipLayoutAt_eq, drop_behindLayout, normaliseChecked_eq,
        operatorFaultChecked_eq]
      cases operatorFault? shape (normalise none (skipLayout (tokens.drop pos))) with
      | some fault => rfl
      | none => rfl
  · have hend := Nat.le_of_not_lt hlt
    rw [if_pos hend, List.drop_eq_nil_of_le hend]
    rfl

end Definition

end CPreprocessor
