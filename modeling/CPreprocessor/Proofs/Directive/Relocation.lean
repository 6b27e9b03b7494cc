import CPreprocessor.Proofs.Condition.Spelling
import CPreprocessor.Proofs.Directive.Selection
import CPreprocessor.Proofs.Macro.Reachable
import CPreprocessor.Proofs.Macro.Relocation

/-!
# Lines at other places

What a run reads of its lines does not depend on where they stand: their forms, the names and the
conditions in them, and the tables that come from the same changes at other places.
-/

namespace CPreprocessor

variable {f : Location → Location}

/-! ## Parts of a run at other places -/

/-- A scanned token at another place. -/
def Scanned.relocate (f : Location → Location) (t : Scanned) : Scanned :=
  { t with token := t.token.relocate f }

def Frame.relocate (f : Location → Location) (frame : Frame) : Frame :=
  { frame with location := f frame.location }

def Verdict.relocate (f : Location → Location) (verdict : Verdict) : Verdict :=
  { verdict with location := f verdict.location }

/-- A change of a table at another place. -/
def Event.relocate (f : Location → Location) (event : Event) : Event :=
  { event with location := event.location.map f }

def LineForm.relocate (f : Location → Location) : LineForm → LineForm
  | text => text
  | nothing => nothing
  | invalid mark name => invalid (mark.relocate f) (name.relocate f)
  | directive mark name rest =>
    directive (mark.relocate f) (name.relocate f) (rest.map (.relocate f))

theorem LineForm.of_relocate (line : List Token) :
    LineForm.of (line.map (.relocate f)) = (LineForm.of line).relocate f := by
  rw [LineForm.of, List.dropWhile_map, LineForm.of]
  have hblank : (fun t : Token => decide (t.kind = .whitespace) || decide (t.kind = .comment)) ∘
      Token.relocate f = fun t => decide (t.kind = .whitespace) || decide (t.kind = .comment) := rfl
  rw [hblank]
  cases line.dropWhile fun t => decide (t.kind = .whitespace) || decide (t.kind = .comment) with
  | nil => rfl
  | cons mark afterMark =>
    simp only [List.map_cons]
    rw [Token.isPunctuator_relocate, skipLayout_relocate]
    split
    · cases skipLayout afterMark with
      | nil => rfl
      | cons name rest =>
        simp only [List.map_cons]
        rw [Token.isIdentifier_relocate, Token.kind_relocate, List.filter_map]
        split
        · rfl
        split
        · rfl
        · rfl
    · rfl

theorem isLive_relocate (frames : List Frame) : isLive (frames.map (.relocate f)) = isLive frames := by
  cases frames with
  | nil => rfl
  | cons frame outer => rfl

/-! ## Tables -/

/-- A definition that the table `left` holds, or one that is moved. -/
def Definition.Moved (f : Location → Location) (left : Table) (d d' : Definition) : Prop :=
  d' = d ∧ d ∈ left.definitions ∨ d' = d.relocate f

namespace Definition.Moved

variable {left : Table} {d d' : Definition} {ds ds' : List Definition}

theorem alike (h : d.Moved f left d') : d.Alike d' := by
  rcases h with ⟨rfl, -⟩ | rfl
  · exact .refl d'
  · exact d.alike_relocate

theorem find? (h : List.Forall₂ (Definition.Moved f left) ds ds') (name : String) :
    Option.Rel Alike (ds.find? (·.name = name)) (ds'.find? (·.name = name)) := by
  induction h with
  | nil => exact .none
  | @cons d d' ds ds' hd _ ih =>
    rw [List.find?_cons, List.find?_cons, hd.alike.name]
    split
    · exact .some hd.alike
    · exact ih

theorem put (h : List.Forall₂ (Definition.Moved f left) ds ds') (d : Definition) :
    List.Forall₂ (Definition.Moved f left) (Table.put d ds) (Table.put (d.relocate f) ds') := by
  have hname : (d.relocate f).name = d.name := rfl
  induction h with
  | nil => exact .cons (.inr rfl) .nil
  | @cons c c' cs cs' hc hcs ih =>
    rw [Table.put, Table.put, hc.alike.name, hname]
    split
    · exact .cons (.inr rfl) hcs
    · exact .cons hc ih

theorem filter (h : List.Forall₂ (Definition.Moved f left) ds ds') (name : String) :
    List.Forall₂ (Definition.Moved f left) (ds.filter (·.name ≠ name)) (ds'.filter (·.name ≠ name)) := by
  induction h with
  | nil => exact .nil
  | @cons c c' cs cs' hc hcs ih =>
    rw [List.filter_cons, List.filter_cons, hc.alike.name]
    split
    · exact .cons hc ih
    · exact ih

end Definition.Moved

/-- Two tables that come from the table `left` by the same changes, those of the second one at other
places. -/
structure Table.Moved (f : Location → Location) (left t t' : Table) : Prop where
  definitions : List.Forall₂ (Definition.Moved f left) t.definitions t'.definitions
  history : ∃ events, t.history = left.history ++ events ∧
    t'.history = left.history ++ events.map (.relocate f)

theorem Table.isDefined_of_lookup {t t' : Table}
    (h : ∀ name, Option.Rel Definition.Alike (t.lookup name) (t'.lookup name)) :
    t'.isDefined = t.isDefined := by
  funext name
  have hlookup := h name
  rw [Table.isDefined, Table.isDefined]
  generalize t.lookup name = o at hlookup
  generalize t'.lookup name = o' at hlookup
  cases hlookup with
  | some => rfl
  | none => rfl

namespace Table.Moved

variable {left t t' : Table}

theorem refl (left : Table) : Moved f left left left where
  definitions := List.forall₂_same.mpr fun _ hd => .inl ⟨rfl, hd⟩
  history := ⟨[], (List.append_nil _).symm, (List.append_nil _).symm⟩

theorem lookup (h : Moved f left t t') (name : String) :
    Option.Rel Definition.Alike (t.lookup name) (t'.lookup name) :=
  Definition.Moved.find? h.definitions name

theorem isDefined (h : Moved f left t t') : t'.isDefined = t.isDefined :=
  isDefined_of_lookup h.lookup

theorem any_builtin (h : Moved f left t t') (name : String) :
    (t'.lookup name).any Definition.builtin = (t.lookup name).any Definition.builtin := by
  have hlookup := h.lookup name
  generalize t.lookup name = o at hlookup
  generalize t'.lookup name = o' at hlookup
  cases hlookup with
  | some halike => exact halike.builtin
  | none => rfl

theorem version (h : Moved f left t t') : t'.version = t.version := by
  obtain ⟨events, ht, ht'⟩ := h.history
  rw [Table.version, Table.version, ht, ht', List.length_append, List.length_append, List.length_map]

/-- One more change of both tables. -/
theorem history_append (h : Moved f left t t') (event : Event) :
    ∃ events, t.history ++ [event] = left.history ++ events ∧
      t'.history ++ [event.relocate f] = left.history ++ events.map (.relocate f) := by
  obtain ⟨events, ht, ht'⟩ := h.history
  refine ⟨events ++ [event], ?_, ?_⟩
  · rw [ht, List.append_assoc]
  · rw [ht', List.append_assoc, List.map_append, List.map_singleton]

theorem define (h : Moved f left t t') (d : Definition) :
    Moved f left (t.define d) (t'.define (d.relocate f)) where
  definitions := by
    have hput := Definition.Moved.put h.definitions { d with version := t.version + 1 }
    have hversion : ({ d with version := t.version + 1 } : Definition).relocate f =
        { d.relocate f with version := t'.version + 1 } := by
      rw [h.version]
      rfl
    rw [hversion] at hput
    exact hput
  history := by
    show ∃ events, t.history ++ [⟨.define, d.name, t.version + 1, d.location⟩] = _ ∧
      t'.history ++ [⟨.define, d.name, t'.version + 1, d.location.map f⟩] = _
    rw [h.version]
    exact h.history_append _

theorem undefine (h : Moved f left t t') (name : String) (location : Location) :
    Moved f left (t.undefine name location) (t'.undefine name (f location)) := by
  rw [Table.undefine, Table.undefine, h.isDefined]
  split
  · refine ⟨Definition.Moved.filter h.definitions name, ?_⟩
    simp only
    rw [h.version]
    exact h.history_append ⟨.undefine, name, t.version + 1, location⟩
  · exact h

end Table.Moved

namespace Table.Placeless

variable {t : Table}

theorem define (h : t.Placeless) {d : Definition} (hd : d.builtin = false) :
    (t.define d).Placeless := by
  intro e he hbuiltin
  rcases Table.mem_of_mem_put he with rfl | he
  · rw [hd] at hbuiltin
    cases hbuiltin
  · exact h e he hbuiltin

theorem undefine (h : t.Placeless) (name : String) (location : Option Location) :
    (t.undefine name location).Placeless := by
  rw [Table.undefine]
  split
  · exact fun d hd => h d (List.mem_filter.mp hd).1
  · exact h

end Table.Placeless

/-! ## What a run sees of its lines -/

theorem Run.outputToken_relocate (keepComments : Bool) (t : Token) :
    outputToken keepComments (t.relocate f) = (outputToken keepComments t).relocate f := by
  rw [outputToken, outputToken, Token.kind_relocate]
  split
  · rfl
  · rfl

theorem renderPrinted_relocate (tokens : List Token) :
    renderPrinted (tokens.map (.relocate f)) = renderPrinted tokens := by
  have hafter : ∀ (tokens : List Token) (previous : Token),
      renderAfter (previous.relocate f) (tokens.map (.relocate f)) = renderAfter previous tokens := by
    intro tokens
    induction tokens with
    | nil => exact fun _ => rfl
    | cons t ts ih =>
      intro previous
      rw [List.map_cons, renderAfter, renderAfter, ih]
      rfl
  cases tokens with
  | nil => rfl
  | cons t ts =>
    rw [List.map_cons, renderPrinted, renderPrinted, hafter]
    rfl

theorem Run.conditionText_relocate (rest : List Token) :
    conditionText (rest.map (.relocate f)) = conditionText rest := by
  have hfilter : ∀ p : Token → Bool, (∀ t, p (t.relocate f) = p t) → ∀ ts : List Token,
      (ts.map (Token.relocate f)).filter p = (ts.filter p).map (.relocate f) := by
    intro p hp ts
    rw [List.filter_map]
    congr 2
    funext t
    exact hp t
  rw [conditionText, conditionText, render, render, hfilter _ fun t => rfl, hfilter _ fun t => rfl,
    renderPrinted_relocate]

theorem Run.macroName_relocate (directive : String) (rest : List Token) (mark : Location) :
    macroName directive (rest.map (.relocate f)) (f mark) =
      moved (.relocate f) (Prod.map (.relocate f) (List.map (.relocate f)))
        (macroName directive rest mark) := by
  rw [macroName, Definition.significant_relocate, macroName]
  cases significant rest with
  | nil => rfl
  | cons name extra =>
    simp only [List.map_cons]
    rw [Token.isIdentifier_relocate]
    split
    · rfl
    · rfl

namespace Defined

theorem name?_relocate (tokens : List Token) :
    name? (tokens.map (.relocate f)) = (name? tokens).map (Prod.map id (List.map (.relocate f))) := by
  cases tokens with
  | nil => rfl
  | cons t rest =>
    rw [List.map_cons, name?, name?, Token.isIdentifier_relocate]
    split
    · rfl
    · rfl

theorem operand_relocate (tokens : List Token) :
    operand (tokens.map (.relocate f)) = (operand tokens).map (Prod.map id (List.map (.relocate f))) := by
  rw [operand, skipLayout_relocate, operand]
  cases skipLayout tokens with
  | nil => rfl
  | cons t rest =>
    simp only [List.map_cons]
    rw [Token.isPunctuator_relocate, skipLayout_relocate, name?_relocate, ← List.map_cons, name?_relocate]
    split
    · cases name? (skipLayout rest) with
      | none => rfl
      | some read =>
        simp only [Option.map_some, Prod.map_snd]
        rw [skipLayout_relocate]
        cases skipLayout read.2 with
        | nil => rfl
        | cons close tail =>
          simp only [List.map_cons]
          rw [Token.isPunctuator_relocate]
          split
          · rfl
          · rfl
    · cases name? (t :: rest) with
      | none => rfl
      | some read => rfl

theorem resolve_relocate (isDefined : String → Bool) (tokens : List Token) :
    resolve isDefined (tokens.map (.relocate f)) =
      moved (.relocate f) (List.map (.relocate f)) (resolve isDefined tokens) := by
  have hcons : ∀ (t : Token) (outcome : Except (Located ConditionFault) (List Token)),
      (moved (.relocate f) (List.map (.relocate f)) outcome).map (t.relocate f :: ·) =
        moved (.relocate f) (List.map (.relocate f)) (outcome.map (t :: ·)) := by
    intro t outcome
    cases outcome with
    | error fault => rfl
    | ok resolved => rfl
  fun_induction resolve isDefined tokens with
  | case1 => rw [List.map_nil, resolve]; rfl
  | case2 t rest hoperator fault hfault =>
    have hoperand := operand_relocate (f := f) rest
    rw [hfault] at hoperand
    rw [List.map_cons, resolve, if_pos (show isOperator (t.relocate f) = true from hoperator)]
    split
    · rename_i fault' hfault'
      cases hoperand.symm.trans hfault'
      rfl
    · rename_i hread
      cases hoperand.symm.trans hread
  | case3 t rest hoperator name after hread ih =>
    have hoperand := operand_relocate (f := f) rest
    rw [hread] at hoperand
    rw [List.map_cons, resolve, if_pos (show isOperator (t.relocate f) = true from hoperator)]
    split
    · rename_i hfault
      cases hoperand.symm.trans hfault
    · rename_i name' after' hread'
      cases hoperand.symm.trans hread'
      rw [ih]
      exact hcons (answer t (isDefined name)) _
  | case4 t rest hoperator ih =>
    rw [List.map_cons, resolve, if_neg (show ¬ isOperator (t.relocate f) = true from hoperator), ih]
    exact hcons t _

end Defined

/-! ## What comes of a condition -/

namespace Expander

variable {e e' : Expander}

/-- What comes of a condition, but for the place of a fault: its operators `defined` are answered, it is
expanded, and what comes out is evaluated. No cause is told of a failed expansion. -/
def outcome (e : Expander) (nestingLimit : Nat) (tokens : List Token) :
    Except (Option ConditionFault) Value :=
  match Defined.resolve e.table.isDefined tokens with
  | .error fault => .error (some fault.cause)
  | .ok resolved =>
    match e.expand resolved with
    | .error _ => .error none
    | .ok expansion =>
      let setting : Setting := { isDefined := e.table.isDefined, nestingLimit }
      (evaluate setting expansion.tokens).outcome.mapError some

/-- What comes of a condition depends on no place that the macros do not look at. -/
theorem outcome_relocate (h : e.Alike e') (hoverlooks : e.table.Overlooks f) (nestingLimit : Nat)
    (tokens : List Token) :
    e'.outcome nestingLimit (tokens.map (.relocate f)) = e.outcome nestingLimit tokens := by
  rw [outcome, Table.isDefined_of_lookup h.lookup, Defined.resolve_relocate, outcome]
  cases Defined.resolve e.table.isDefined tokens with
  | error fault => rfl
  | ok resolved =>
    simp only [moved_ok]
    rw [expand_relocate h hoverlooks]
    cases e.expand resolved with
    | error error => rfl
    | ok expansion =>
      have hforms : (expansion.relocate f).tokens.map Token.form = expansion.tokens.map Token.form := by
        rw [Expansion.relocate, List.map_map]
        rfl
      exact congrArg (Except.mapError some) (outcome_of_forms rfl rfl hforms)

/-- On a deeper stack the same comes of a condition, unless it was refused for its nesting. -/
theorem outcome_add (e : Expander) (nestingLimit extra : Nat) (tokens : List Token) :
    e.outcome (nestingLimit + extra) tokens = e.outcome nestingLimit tokens ∨
      0 < extra ∧ e.outcome nestingLimit tokens = .error (some .nestedTooDeeply) := by
  rw [outcome, outcome]
  cases Defined.resolve e.table.isDefined tokens with
  | error fault => exact .inl rfl
  | ok resolved =>
    simp only
    cases e.expand resolved with
    | error error => exact .inl rfl
    | ok expansion =>
      let setting (limit : Nat) : Setting := { isDefined := e.table.isDefined, nestingLimit := limit }
      have hdefined : (setting (nestingLimit + extra)).isDefined = (setting nestingLimit).isDefined := rfl
      obtain hsame | ⟨hextra, hnested⟩ :=
        outcome_of_nesting hdefined rfl (Eq.refl (expansion.tokens.map Token.form))
      · exact .inl (congrArg (Except.mapError some) hsame)
      · exact .inr ⟨hextra, congrArg (Except.mapError some) hnested⟩

end Expander

/-- Whether an error is told with some cause, or else with none that conditions have. -/
def Report.TellsOf : Report → Option ConditionFault → Prop
  | report, some cause => ∃ location line, report = ConditionFault.report ⟨cause, location⟩ line
  | report, none => ∃ (error : ExpansionError) (line : Option String), report = error.report line

namespace SourceUnit

variable {u u' : SourceUnit} {left table table' : Table}

theorem alike_expander (hsetup : u'.setup = u.setup) (h : Table.Moved f left table table') :
    (u.expander table).Alike (u'.expander table') where
  lookup := h.lookup
  limit := by rw [expander, hsetup, expander]
  frozen := by rw [expander, hsetup, expander]

/-- A run tells what comes of a condition. -/
theorem evaluate_eq_outcome (u : SourceUnit) (table : Table) (tokens : List Token) (location : Location) :
    match (u.expander table).outcome u.setup.nestingLimit tokens with
    | .ok value => (u.evaluate table tokens location).1 = .ok value
    | .error cause => ∃ report, (u.evaluate table tokens location).1 = .error report ∧
        report.TellsOf cause := by
  have htable : (u.expander table).table = table := rfl
  rw [evaluate, Expander.outcome, htable]
  cases Defined.resolve table.isDefined tokens with
  | error fault => exact ⟨_, rfl, _, _, rfl⟩
  | ok resolved =>
    simp only
    cases (u.expander table).expand resolved with
    | error error => exact ⟨_, rfl, error, _, rfl⟩
    | ok expansion =>
      let setting : Setting := { isDefined := table.isDefined, nestingLimit := u.setup.nestingLimit }
      have hsame : (CPreprocessor.evaluate { setting with location } expansion.tokens).outcome =
          (CPreprocessor.evaluate setting expansion.tokens).outcome :=
        outcome_of_forms (by rfl) (by rfl) rfl
      simp only
      rw [← hsame, Evaluation.outcome]
      cases (CPreprocessor.evaluate _ expansion.tokens).result with
      | ok value => rfl
      | error fault => exact ⟨_, rfl, fault.location, _, rfl⟩

/-- A run evaluates a condition to its value. -/
theorem toOption_evaluate (u : SourceUnit) (table : Table) (tokens : List Token) (location : Location) :
    (u.evaluate table tokens location).1.toOption =
      ((u.expander table).outcome u.setup.nestingLimit tokens).toOption := by
  have htold := u.evaluate_eq_outcome table tokens location
  cases houtcome : (u.expander table).outcome u.setup.nestingLimit tokens with
  | ok value =>
    rw [houtcome] at htold
    rw [htold]
    rfl
  | error cause =>
    rw [houtcome] at htold
    obtain ⟨report, hreport, -⟩ := htold
    rw [hreport]
    rfl

/-- Whether a condition holds depends on no place. -/
theorem evaluate_relocate (hsetup : u'.setup = u.setup)
    (h : Table.Moved f left table table') (hplaceless : table.Placeless) (rest : List Token)
    (mark : Location) :
    (u'.evaluate table' (rest.map (.relocate f)) (f mark)).1.toOption =
      (u.evaluate table rest mark).1.toOption := by
  rw [toOption_evaluate, toOption_evaluate, hsetup,
    Expander.outcome_relocate (alike_expander hsetup h) (.inl hplaceless) _ rest]

end SourceUnit

end CPreprocessor
