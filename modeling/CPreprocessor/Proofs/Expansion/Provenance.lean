import Mathlib
import CPreprocessor.Proofs.Expansion.Lasting
import CPreprocessor.Proofs.Expansion.Machine
import CPreprocessor.Proofs.Expansion.Relocation

/-!
# Where the tokens of an expansion come from

An expansion looks at the files and lines of tokens, and at no column. So columns can carry marks that
say where a token comes from: from the tokens that were expanded, from a replacement, or from `__FILE__`
and `__LINE__`. The machine that marks what it makes (`Machine.stepMarked`) is the machine of expansion as
soon as its marks are removed (`Machine.step_unmark`). Whatever it marks stands where a name stood that was
expanded, and the values of `__LINE__` are the lines of their tokens (`Expander.expand_provenance`).
-/

namespace CPreprocessor

/-! ## Marks -/

/-- Where a token of an expansion comes from. What `##` leaves of two operands of which one is empty is
the other one, and comes from where that came. -/
inductive Origin
  /-- the tokens that were expanded -/
  | given
  /-- a replacement list, or a `#` or `##` in one -/
  | replaced
  /-- the value of `__FILE__` or `__LINE__` -/
  | valued
deriving DecidableEq

/-- The mark of an origin. -/
def Origin.code : Origin → Int
  | given => 0
  | replaced => 1
  | valued => 2

namespace Location

/-- A place with a mark in its column. -/
def mark (origin : Origin) (l : Location) : Location := { l with column := 3 * l.column + origin.code }

/-- A place without its mark. -/
def unmark (l : Location) : Location := { l with column := l.column / 3 }

/-- What the mark of a place says. -/
def origin (l : Location) : Origin :=
  if l.column % 3 = 0 then .given else if l.column % 3 = 1 then .replaced else .valued

/-- A marked place with another mark. -/
def remark (origin : Origin) (l : Location) : Location := l.unmark.mark origin

variable {o : Origin} {l : Location}

theorem unmark_mark : (l.mark o).unmark = l := by
  have hcolumn : (3 * l.column + o.code) / 3 = l.column := by
    cases o with
    | _ => simp only [Origin.code]; omega
  rw [unmark, mark, hcolumn]

theorem origin_mark : (l.mark o).origin = o := by
  rw [origin, mark]
  cases o with
  | given => rw [if_pos (by simp [Origin.code])]
  | replaced => rw [if_neg (by simp only [Origin.code]; omega), if_pos (by simp only [Origin.code]; omega)]
  | valued => rw [if_neg (by simp only [Origin.code]; omega), if_neg (by simp only [Origin.code]; omega)]

theorem unmark_remark : (l.remark o).unmark = l.unmark := unmark_mark

theorem origin_remark : (l.remark o).origin = o := origin_mark

end Location

open Location

/-- The turn of `t`, with marks: a value is marked as one, and the place of an invocation, which is
where its replacement will stand, as one of a replacement. -/
def Turn.mark (t : Token) : Turn → Turn
  -- Of all that a turn finishes, only a value is of another kind than its token.
  | .emit u => .emit (if u.kind = t.kind then u else u.relocate (remark .valued))
  | .invoke i => .invoke { i with site := i.site.relocate (remark .replaced) }

/-- What the mark of a replacement says: of the tokens that replace a marked invocation, those have it that
are not the tokens of an argument, as written or as expanded, which keep their own. -/
theorem Turn.origin_of_replacement {t : Token} {i marked : Invocation}
    (hmark : (Turn.invoke i).mark t = .invoke marked) {expanded : List (Nat × List Token)}
    {tokens : List Token} (h : marked.replacement expanded = .ok tokens) :
    ∀ u ∈ tokens, u.location.origin = .replaced ∨
      ∃ v, u = v.hideBy i.hide ∧ ((∃ a ∈ i.arguments, v ∈ a) ∨ ∃ entry ∈ expanded, v ∈ entry.2) := by
  cases hmark
  intro u hu
  obtain hsite | hargument := Invocation.location_or_mem_of_replacement h u hu
  · refine .inl ?_
    rw [hsite, Token.location_relocate, origin_remark]
  · exact .inr hargument

namespace Machine

/-- What a turn makes of a machine that has `rest` pending behind the token. -/
def act (e : Expander) (depth : Nat) (done : Progress) (rest : List Token) (waiting : List Suspension) :
    Turn → Machine
  | .emit u => .working depth (done.emit u) rest waiting
  | .invoke i =>
    if e.exceeds depth i.hide.size then .halted (.error (e.tooDeep i))
    else proceed e ⟨depth, done, i, [], i.expandedIndices⟩ waiting

/-- The step of the machine that marks what it makes. -/
def stepMarked (e : Expander) : Machine → Machine
  | .halted outcome => .halted outcome
  | .working _ done [] waiting => conclude e done waiting
  | .working depth done (t :: rest) waiting =>
    match e.turn t rest with
    | .error error => .halted (.error error)
    | .ok turn => act e depth done rest waiting (turn.mark t)

/-- Whether the machine that marks what it makes halts with an outcome, from tokens that are marked as
those that were given. -/
def Marks (e : Expander) (tokens : List Token) (outcome : Except ExpansionError Progress) : Prop :=
  ∃ n, (stepMarked e)^[n] (start (tokens.map (.relocate (mark .given)))) = .halted outcome

end Machine

/-! ## Machines at other places -/

variable {e : Expander} {f : Location → Location} {t u : Token} {rest tokens : List Token}

/-- A turn at another place. -/
def Turn.relocate (f : Location → Location) : Turn → Turn
  | .emit t => .emit (t.relocate f)
  | .invoke i => .invoke (i.relocate f i.definition)

/-- The turn of a token does not depend on columns. -/
theorem Expander.turn_relocate_columns (hf : ∀ l, (f l).file = l.file ∧ (f l).line = l.line) (e : Expander)
    (t : Token) (rest : List Token) :
    e.turn (t.relocate f) (rest.map (.relocate f)) = moved (.relocate f) (.relocate f) (e.turn t rest) := by
  have hdefinition : e.definition? (t.relocate f) = e.definition? t := rfl
  rw [turn, turn, hdefinition]
  cases e.definition? t with
  | none => rfl
  | some d =>
    simp only [Token.text_relocate, Token.hide_relocate, dynamicValue_relocate hf, opensArguments_relocate,
      call_relocate (Definition.Alike.refl d)]
    split
    · rfl
    split
    · rfl
    split
    · rfl
    split
    · cases hcall : call d t rest with
      | error error => rfl
      | ok i =>
        obtain rfl := definition_of_call hcall
        rfl
    · rfl

/-- What a turn marks has been marked when its marks are removed. -/
theorem Turn.relocate_mark (t : Token) (turn : Turn) :
    (turn.mark t).relocate unmark = turn.relocate unmark := by
  have hplace : ∀ (o : Origin) (t : Token), (t.relocate (remark o)).relocate unmark = t.relocate unmark := by
    intro o t
    rw [Token.relocate, Token.location_relocate, unmark_remark]
    rfl
  cases turn with
  | emit u =>
    rw [mark]
    split
    · rfl
    · exact congrArg Turn.emit (hplace .valued u)
  | invoke i =>
    simp only [mark, relocate, Invocation.relocate, hplace]

/-- A waiting expansion at another place. -/
def Suspension.relocate (f : Location → Location) (w : Suspension) : Suspension where
  depth := w.depth
  done := w.done.relocate f
  invocation := w.invocation.relocate f w.invocation.definition
  finished := w.finished.map (.relocate f)
  remaining := w.remaining

namespace Machine

/-- A machine at another place. -/
def relocate (f : Location → Location) : Machine → Machine
  | .working depth done pending waiting =>
    .working depth (done.relocate f) (pending.map (.relocate f)) (waiting.map (.relocate f))
  | .halted outcome => .halted (moved (.relocate f) (.relocate f) outcome)

theorem proceed_relocate (e : Expander) (w : Suspension) (waiting : List Suspension) :
    proceed e (w.relocate f) (waiting.map (.relocate f)) = (proceed e w waiting).relocate f := by
  have halike : w.invocation.definition.Alike w.invocation.definition := .refl _
  unfold proceed
  cases hremaining : w.remaining with
  | nil =>
    simp only [Suspension.relocate, hremaining]
    rw [Invocation.replacement_relocate halike]
    cases w.invocation.replacement
        (w.invocation.expandedIndices.zip (w.finished.map Progress.tokens)) with
    | error error => rfl
    | ok body =>
      simp only [moved_ok, relocate, List.map_append]
      rw [← Progress.invoke_relocate]
      rfl
  | cons index others =>
    simp only [Suspension.relocate, hremaining]
    split
    · rfl
    · rw [Invocation.argument_relocate]
      rfl

theorem conclude_relocate (e : Expander) (done : Progress) (waiting : List Suspension) :
    conclude e (done.relocate f) (waiting.map (.relocate f)) = (conclude e done waiting).relocate f := by
  cases waiting with
  | nil => rfl
  | cons w waiting =>
    have hfinished : (w.relocate f).finished ++ [done.relocate f] =
        (w.finished ++ [done]).map (.relocate f) := by
      rw [List.map_append, List.map_singleton, Suspension.relocate]
    rw [List.map_cons, conclude, conclude, hfinished]
    exact proceed_relocate e { w with finished := w.finished ++ [done] } waiting

theorem step_cons (e : Expander) (depth : Nat) (done : Progress) (t : Token) (rest : List Token)
    (waiting : List Suspension) :
    step e (.working depth done (t :: rest) waiting) =
      match e.turn t rest with
      | .error error => .halted (.error error)
      | .ok turn => act e depth done rest waiting turn := by
  rw [step]
  cases e.turn t rest with
  | error error => rfl
  | ok turn =>
    cases turn with
    | emit u => rfl
    | invoke i => rfl

theorem act_relocate (e : Expander) (depth : Nat) (done : Progress) (rest : List Token)
    (waiting : List Suspension) (turn : Turn) :
    act e depth (done.relocate f) (rest.map (.relocate f)) (waiting.map (.relocate f)) (turn.relocate f) =
      (act e depth done rest waiting turn).relocate f := by
  cases turn with
  | emit u => rfl
  | invoke i =>
    have hindices : (i.relocate f i.definition).expandedIndices = i.expandedIndices := rfl
    have hhide : (i.relocate f i.definition).hide = i.hide := rfl
    simp only [Turn.relocate, act, hindices, hhide]
    cases e.exceeds depth i.hide.size with
    | true => rfl
    | false => exact proceed_relocate e ⟨depth, done, i, [], i.expandedIndices⟩ waiting

/-- With its marks removed, the machine that marks is the machine. -/
theorem step_unmark (e : Expander) (m : Machine) :
    step e (m.relocate unmark) = (stepMarked e m).relocate unmark := by
  cases m with
  | halted outcome => rfl
  | working depth done pending waiting =>
    cases pending with
    | nil => exact conclude_relocate e done waiting
    | cons t rest =>
      have hturn : e.turn (t.relocate unmark) (rest.map (.relocate unmark)) =
          moved (.relocate unmark) (.relocate unmark) (e.turn t rest) :=
        Expander.turn_relocate_columns (f := unmark) (fun l => ⟨rfl, rfl⟩) e t rest
      rw [relocate, List.map_cons, step_cons, hturn, stepMarked]
      cases e.turn t rest with
      | error error => rfl
      | ok turn =>
        rw [moved_ok]
        dsimp only
        rw [← act_relocate, Turn.relocate_mark]

theorem iterate_step_unmark (e : Expander) (n : Nat) (m : Machine) :
    (step e)^[n] (m.relocate unmark) = ((stepMarked e)^[n] m).relocate unmark :=
  (Function.Semiconj.iterate_right (f := relocate unmark) (fun m => (step_unmark e m).symm) n m).symm

theorem start_unmark (o : Origin) (tokens : List Token) :
    (start (tokens.map (.relocate (mark o)))).relocate unmark = start tokens := by
  have hplain : ∀ tokens : List Token, (tokens.map (Token.relocate (mark o))).map (.relocate unmark) =
      tokens := by
    intro tokens
    refine (List.map_map ..).trans (List.map_id'' (fun t => ?_) tokens)
    show t.moveTo (unmark (mark o t.location)) = t
    rw [unmark_mark]
    rfl
  have hfilter : (tokens.map (Token.relocate (mark o))).filter (fun t => t.kind ≠ .endOfInput) =
      (tokens.filter fun t => t.kind ≠ .endOfInput).map (.relocate (mark o)) := List.filter_map
  rw [start, hfilter, relocate, hplain]
  rfl

end Machine

/-! ## What a property that lasts says of machines -/

variable {P : Location → Prop} {Q : Token → Prop} {table : Table}

/-- Whether all tokens of a waiting expansion have a property. -/
structure Suspension.Has (table : Table) (P : Location → Prop) (Q : Token → Prop) (w : Suspension) :
    Prop where
  done : ∀ t ∈ w.done.output, Q t
  invocation : w.invocation.Has table P Q
  finished : ∀ p ∈ w.finished, ∀ t ∈ p.output, Q t

namespace Machine

/-- Whether all tokens of a machine have a property. -/
def Has (table : Table) (P : Location → Prop) (Q : Token → Prop) : Machine → Prop
  | .working _ done pending waiting =>
    (∀ t ∈ done.output, Q t) ∧ (∀ t ∈ pending, Q t) ∧ ∀ w ∈ waiting, w.Has table P Q
  | .halted outcome => ∀ p, outcome = .ok p → ∀ t ∈ p.output, Q t

theorem has_proceed (hQ : Lasting e.table P Q) {w : Suspension} (hw : w.Has e.table P Q)
    {waiting : List Suspension} (hwaiting : ∀ w ∈ waiting, w.Has e.table P Q) :
    (proceed e w waiting).Has e.table P Q := by
  unfold proceed
  split
  · split
    · exact nofun
    · rename_i body hbody
      have hreplaced := hw.invocation.replacement hQ (Expander.mem_zip_tokens hw.finished) hbody
      exact ⟨hw.done, List.forall_mem_append.mpr ⟨hreplaced, hw.invocation.rest⟩, hwaiting⟩
  · rename_i index others hremaining
    split
    · exact nofun
    · have hagain : Suspension.Has e.table P Q { w with remaining := others } :=
        ⟨hw.done, hw.invocation, hw.finished⟩
      exact ⟨nofun, hw.invocation.argument index, List.forall_mem_cons.mpr ⟨hagain, hwaiting⟩⟩

theorem has_conclude (hQ : Lasting e.table P Q) {done : Progress} (hdone : ∀ t ∈ done.output, Q t)
    {waiting : List Suspension} (hwaiting : ∀ w ∈ waiting, w.Has e.table P Q) :
    (conclude e done waiting).Has e.table P Q := by
  cases waiting with
  | nil =>
    rintro p ⟨⟩
    exact hdone
  | cons w waiting =>
    obtain ⟨hw, hrest⟩ := List.forall_mem_cons.mp hwaiting
    have hfinished : ∀ p ∈ w.finished ++ [done], ∀ t ∈ p.output, Q t :=
      List.forall_mem_append.mpr ⟨hw.finished, List.forall_mem_singleton.mpr hdone⟩
    exact has_proceed (w := { w with finished := w.finished ++ [done] }) hQ
      ⟨hw.done, hw.invocation, hfinished⟩ hrest

theorem has_act (hQ : Lasting e.table P Q) {depth : Nat} {done : Progress}
    (hdone : ∀ t ∈ done.output, Q t) (hrest : ∀ t ∈ rest, Q t) {waiting : List Suspension}
    (hwaiting : ∀ w ∈ waiting, w.Has e.table P Q) {turn : Turn}
    (hturn : Expander.Turn.Has e.table P Q turn) :
    (act e depth done rest waiting turn).Has e.table P Q := by
  cases turn with
  | emit u => exact ⟨List.forall_mem_cons.mpr ⟨hturn, hdone⟩, hrest, hwaiting⟩
  | invoke i =>
    rw [act]
    split
    · exact nofun
    · exact has_proceed (w := ⟨depth, done, i, [], i.expandedIndices⟩) hQ ⟨hdone, hturn, nofun⟩ hwaiting

end Machine

/-! ## Tokens that are traced back -/

variable {input : List Token} {site : Location}

/-- Whether a marked place is that of a name that was given, and not of a value. -/
def Location.IsNamed (input : List Token) (l : Location) : Prop :=
  l.origin ≠ .valued ∧ ∃ u ∈ input, u.isIdentifier = true ∧ l.unmark = u.location

/-- The place of a name may be marked as that of a replacement. -/
theorem Location.IsNamed.remark {l : Location} (h : l.IsNamed input) :
    (l.remark .replaced).IsNamed input := by
  obtain ⟨-, u, hu, hname, hplace⟩ := h
  refine ⟨?_, u, hu, hname, unmark_remark.trans hplace⟩
  rw [origin_remark]
  exact nofun

/-- Whether a marked token stands where a given one does, and if it is a name or was not given itself,
where a given name does. A number that is a value is the line there. -/
def Token.IsTraced (input : List Token) (t : Token) : Prop :=
  ∃ u ∈ input, t.location.unmark = u.location ∧
    (t.isIdentifier = true ∨ t.location.origin ≠ .given → u.isIdentifier = true) ∧
    (t.location.origin = .valued → t.isIdentifier = false ∧
      (t.kind = .number → t.text = toString u.location.line))

theorem Token.text_dynamicValue (h : (dynamicValue t).kind = .number) :
    (dynamicValue t).text = toString t.location.line := by
  rw [dynamicValue] at h ⊢
  split
  · rfl
  · rename_i hfile
    rw [if_neg hfile] at h
    cases h

namespace Token.IsTraced

theorem of_isNamed (h : t.location.IsNamed input) : t.IsTraced input := by
  obtain ⟨horigin, u, hu, hname, hplace⟩ := h
  exact ⟨u, hu, hplace, fun _ => hname, fun hvalued => absurd hvalued horigin⟩

theorem isNamed (hname : t.isIdentifier = true) (h : t.IsTraced input) : t.location.IsNamed input := by
  obtain ⟨u, hu, hplace, hidentifier, hvalued⟩ := h
  refine ⟨fun horigin => ?_, u, hu, hidentifier (.inl hname), hplace⟩
  rw [(hvalued horigin).1] at hname
  cases hname

theorem withoutNewline (h : t.IsTraced input) : t.withoutNewline.IsTraced input := by
  rcases t.kind_withoutNewline with hkind | heq
  · obtain ⟨u, hu, hplace, hidentifier, hvalued⟩ := h
    have hname : t.withoutNewline.isIdentifier = false := by
      rw [isIdentifier, hkind]
      rfl
    refine ⟨u, hu, ?_, ?_, ?_⟩
    · rw [t.location_withoutNewline]
      exact hplace
    · rw [t.location_withoutNewline, hname]
      exact fun h => hidentifier (.inr (h.resolve_left Bool.false_ne_true))
    · rw [hkind]
      exact fun _ => ⟨hname, nofun⟩
  · exact heq.symm ▸ h

/-- A value is traced back by any mark at the place of a name, and by that of its token. -/
theorem of_value {l : Location} (hu : u ∈ input) (hplace : l.unmark = u.location)
    (hline : t.location.line = u.location.line)
    (hidentifier : l.origin ≠ .given → u.isIdentifier = true) :
    ((CPreprocessor.dynamicValue t).moveTo l).IsTraced input := by
  have hname : (CPreprocessor.dynamicValue t).isIdentifier = false := by
    rcases t.kind_dynamicValue with hkind | hkind
    all_goals rw [isIdentifier, hkind]; rfl
  refine ⟨u, hu, hplace, fun h => hidentifier (h.resolve_left ?_), fun _ => ⟨hname, fun hnumber => ?_⟩⟩
  · exact Bool.eq_false_iff.mp hname
  · rw [← hline]
    exact text_dynamicValue hnumber

theorem dynamicValue (h : t.IsTraced input) : (dynamicValue t).IsTraced input := by
  obtain ⟨u, hu, hplace, hidentifier, -⟩ := h
  have hline : t.location.unmark.line = u.location.line := congrArg Location.line hplace
  have hvalue := of_value hu hplace hline fun h => hidentifier (.inr h)
  rwa [← t.location_dynamicValue] at hvalue

/-- The value of a name may be marked as one. -/
theorem remark_valued (hname : t.isIdentifier = true) (h : t.IsTraced input) :
    ((CPreprocessor.dynamicValue t).relocate (remark .valued)).IsTraced input := by
  obtain ⟨-, u, hu, hidentifier, hplace⟩ := h.isNamed hname
  have hline : t.location.unmark.line = u.location.line := congrArg Location.line hplace
  rw [Token.relocate, t.location_dynamicValue]
  exact of_value hu (unmark_remark.trans hplace) hline fun _ => hidentifier

end Token.IsTraced

/-- Being traced back lasts. -/
theorem Lasting.isTraced (table : Table) (input : List Token) :
    Lasting table (Location.IsNamed input) (Token.IsTraced input) where
  location hname h := h.isNamed hname
  paint := id
  hideBy _ := id
  withoutNewline h := h.withoutNewline
  dynamicValue h := h.dynamicValue
  copy _ _ hsite := .of_isNamed hsite
  stringize _ hsite := .of_isNamed hsite
  placemarker hsite := .of_isNamed hsite
  paste _ hleft hright hsite hpaste := by
    rcases Token.cases_of_paste? hpaste with rfl | rfl | ⟨-, -, kind, text, -, -, rfl⟩
    · exact hright
    · exact hleft
    · exact .of_isNamed hsite

/-! ## Expansions that are traced back -/

/-- What a turn finishes is the token, painted or not, or the value of a name. -/
theorem Expander.cases_of_emit (h : e.turn t rest = .ok (.emit u)) :
    u.kind = t.kind ∨ t.isIdentifier = true ∧ u = dynamicValue t := by
  unfold turn at h
  split at h
  · cases h
    exact .inl rfl
  rename_i d hdefinition
  split at h
  · cases h
    exact .inl rfl
  split at h
  · cases h
    exact .inr ⟨isIdentifier_of_definition? hdefinition, rfl⟩
  split at h
  · cases h
  split at h
  · obtain ⟨i, -, heq⟩ := map_eq_ok_iff.mp h
    cases heq
  · cases h
    exact .inl rfl

/-- What a turn marks can be traced back. -/
theorem Expander.isTraced_turn {turn : Turn} (h : e.turn t rest = .ok turn) (ht : t.IsTraced input)
    (hrest : ∀ t ∈ rest, t.IsTraced input) :
    Turn.Has e.table (Location.IsNamed input) (Token.IsTraced input) (turn.mark t) := by
  have hturn := has_turn (.isTraced e.table input) h ht hrest
  cases turn with
  | emit u =>
    rw [Turn.mark]
    split
    · exact hturn
    · rename_i hkind
      obtain ⟨hname, rfl⟩ := (cases_of_emit h).resolve_left hkind
      exact ht.remark_valued hname
  | invoke i =>
    have hi : i.Has e.table (Location.IsNamed input) (Token.IsTraced input) := hturn
    exact ⟨hi.definition, hi.site.remark, hi.arguments, hi.rest⟩

theorem Machine.isTraced_stepMarked (e : Expander) {m : Machine}
    (h : m.Has e.table (Location.IsNamed input) (Token.IsTraced input)) :
    (stepMarked e m).Has e.table (Location.IsNamed input) (Token.IsTraced input) := by
  have hQ : Lasting e.table (Location.IsNamed input) (Token.IsTraced input) := .isTraced e.table input
  cases m with
  | halted outcome => exact h
  | working depth done pending waiting =>
    obtain ⟨hdone, hpending, hwaiting⟩ := h
    cases pending with
    | nil => exact has_conclude hQ hdone hwaiting
    | cons t rest =>
      obtain ⟨ht, hrest⟩ := List.forall_mem_cons.mp hpending
      rw [stepMarked]
      split
      · exact nofun
      · rename_i turn hturn
        exact has_act hQ hdone hrest hwaiting (Expander.isTraced_turn hturn ht hrest)

theorem Machine.isTraced_iterate (e : Expander) (n : Nat) {m : Machine}
    (h : m.Has e.table (Location.IsNamed input) (Token.IsTraced input)) :
    ((stepMarked e)^[n] m).Has e.table (Location.IsNamed input) (Token.IsTraced input) := by
  induction n with
  | zero => exact h
  | succ n ih =>
    rw [Function.iterate_succ_apply']
    exact isTraced_stepMarked e ih

/-- Before the expansion every token is traced back to itself. -/
theorem Token.isTraced_given (ht : t ∈ tokens) : (t.relocate (mark .given)).IsTraced tokens := by
  have horigin : (t.relocate (mark .given)).location.origin = .given := by
    rw [Token.location_relocate, origin_mark]
  have hplace : (t.relocate (mark .given)).location.unmark = t.location := by
    rw [Token.location_relocate, unmark_mark]
  refine ⟨t, ht, hplace, fun h => h.resolve_right fun hne => hne horigin, fun hvalued => ?_⟩
  rw [horigin] at hvalued
  cases hvalued

theorem Machine.isTraced_start (table : Table) (tokens : List Token) :
    (start (tokens.map (.relocate (mark .given)))).Has table (Location.IsNamed tokens)
      (Token.IsTraced tokens) := by
  have hmarked : ∀ t ∈ tokens.map (Token.relocate (mark .given)), t.IsTraced tokens :=
    List.forall_mem_map.mpr fun t ht => Token.isTraced_given ht
  exact ⟨List.forall_mem_nil _, fun t ht => hmarked t (List.mem_filter.mp ht).1, List.forall_mem_nil _⟩

namespace Expander

variable {outcome : Except ExpansionError Progress}

/-- The marks do not change what comes of an expansion. -/
theorem expand_of_marks (h : Machine.Marks e tokens outcome) :
    e.expand tokens = (moved (.relocate unmark) (Progress.relocate unmark) outcome).map fun p =>
      ⟨p.tokens.filter fun t => t.kind ≠ .placemarker, p.trace.reverse⟩ := by
  obtain ⟨n, hn⟩ := h
  refine Machine.expand_of_halted n ?_
  rw [← Machine.start_unmark .given, Machine.iterate_step_unmark, hn]
  rfl

theorem exists_marks (e : Expander) (tokens : List Token) : ∃ outcome, Machine.Marks e tokens outcome := by
  obtain ⟨outcome, n, hn⟩ := Machine.exists_reaches_halted e (Machine.start tokens)
  rw [← Machine.start_unmark .given, Machine.iterate_step_unmark] at hn
  cases hm : (Machine.stepMarked e)^[n] (Machine.start (tokens.map (.relocate (mark .given)))) with
  | halted outcome => exact ⟨outcome, n, hm⟩
  | working depth done pending waiting =>
    rw [hm] at hn
    cases hn

theorem isTraced_of_marks {p : Progress} (h : Machine.Marks e tokens (.ok p)) :
    ∀ t ∈ p.tokens, t.IsTraced tokens := by
  obtain ⟨n, hn⟩ := h
  have htraced := Machine.isTraced_iterate e n (Machine.isTraced_start e.table tokens)
  rw [hn] at htraced
  exact fun t ht => htraced p rfl t (List.mem_reverse.mp ht)

/-- An expansion invents no places: each token of it stands where one of the tokens that were expanded
does. The machine that marks where tokens come from halts, and what it halts with is the expansion, with
marks. A token of it that comes from a replacement list, from a `#` or `##` in one, or from `__FILE__` or
`__LINE__`, stands where a name does that was expanded, however deep replacements nest, and a number that
comes from `__LINE__` is the line there. -/
theorem expand_provenance (e : Expander) (tokens : List Token) :
    (∀ x, e.expand tokens = .ok x → ∀ t ∈ x.tokens, ∃ u ∈ tokens, t.location = u.location) ∧
    (∃ outcome, Machine.Marks e tokens outcome) ∧
    ∀ outcome, Machine.Marks e tokens outcome →
      (e.expand tokens = (moved (.relocate unmark) (Progress.relocate unmark) outcome).map fun p =>
        ⟨p.tokens.filter fun t => t.kind ≠ .placemarker, p.trace.reverse⟩) ∧
      ∀ p, outcome = .ok p → ∀ t ∈ p.tokens, ∃ u ∈ tokens, t.location.unmark = u.location ∧
        (t.location.origin ≠ .given → u.isIdentifier = true) ∧
        (t.location.origin = .valued → t.kind = .number → t.text = toString u.location.line) := by
  refine ⟨fun x hx => ?_, exists_marks e tokens, fun outcome h => ⟨expand_of_marks h, ?_⟩⟩
  · have hstands : StandAt (fun l => ∃ u ∈ tokens, l = u.location) tokens := fun u hu => ⟨u, hu, rfl⟩
    have horigin := e.expand_origin hstands
    rwa [hx] at horigin
  · rintro p rfl t ht
    obtain ⟨u, hu, hplace, hidentifier, hvalued⟩ := isTraced_of_marks h t ht
    exact ⟨u, hu, hplace, fun h => hidentifier (.inr h), fun h => (hvalued h).2⟩

end Expander

/-! ## The line of a call -/

/-- The macro that `#define stamp __LINE__;` defines. -/
def stampTable : Table :=
  (Table.define ∅ (Builtin.dynamic "__LINE__")).define
    { name := "stamp", replacement := [wordAt "__LINE__" 14, markAt ";" 22] }

/-- What `stamp` in column 7 is expanded to, from last to first, with the line in column `line` and the
semicolon in column `semicolon`. -/
def stampProgress (line semicolon : Int) : Progress where
  output :=
    [{ markAt ";" semicolon with hide := HideSet.insert ∅ "stamp" },
      { wordAt "1" line with kind := .number, hide := HideSet.insert (HideSet.insert ∅ "stamp") "__LINE__" }]
  trace := ["stamp"]

/-- The line is marked as a value in column 7, and the semicolon as a replacement there. -/
theorem Expander.expand_provenance_line :
    Machine.Marks { table := stampTable } [wordAt "stamp" 7] (.ok (stampProgress 23 22)) ∧
    Expander.expand { table := stampTable } [wordAt "stamp" 7] =
      .ok ⟨(stampProgress 7 7).tokens, ["stamp"]⟩ ∧
    ∀ t ∈ (stampProgress 23 22).tokens, t.location.origin ≠ .given ∧
      ∃ u ∈ [wordAt "stamp" 7], t.location.unmark = u.location ∧ u.isIdentifier = true := by
  have hmarks : Machine.Marks { table := stampTable } [wordAt "stamp" 7] (.ok (stampProgress 23 22)) :=
    ⟨4, by cbv⟩
  obtain ⟨hexpand, htraced⟩ := (expand_provenance { table := stampTable } [wordAt "stamp" 7]).2.2 _ hmarks
  have hmade : ∀ t ∈ (stampProgress 23 22).tokens, t.location.origin ≠ .given := by decide
  refine ⟨hmarks, hexpand, fun t ht => ⟨hmade t ht, ?_⟩⟩
  obtain ⟨u, hu, hplace, hidentifier, -⟩ := htraced _ rfl t ht
  exact ⟨u, hu, hplace, hidentifier (hmade t ht)⟩

end CPreprocessor
