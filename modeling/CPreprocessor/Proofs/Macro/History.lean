import Mathlib.Data.List.Forall2
import Mathlib.Data.List.Nodup
import CPreprocessor.Expansion.Expander
import CPreprocessor.Macro.Table
import CPreprocessor.Proofs.Source.Content

/-!
# Tables and their histories

Whatever is done to tables, each of them can be read off its history (`Table.Replays`): which names are
defined, by which change and where, and in which order they came in. A table that counts its changes on
its own, and finds a conflict only after it has made the change, is in step with it (`Ledger.Keeps`).
-/

namespace CPreprocessor

/-! ## Histories -/

namespace Event

variable {name : String} {history : List Event} {e : Event}

/-- The changes of a name, oldest first. -/
def changesOf (name : String) (history : List Event) : List Event := history.filter (·.name = name)

/-- The definitions of a name since it was last removed, oldest first. -/
def unremoved (name : String) (history : List Event) : List Event :=
  ((changesOf name history).reverse.takeWhile (·.action = .define)).reverse

/-- Whether the name `a` came in before the name `b`, and both have stayed since. -/
def Before (history : List Event) (a b : String) : Prop :=
  ∃ x ∈ (unremoved a history).head?, ∃ y ∈ (unremoved b history).head?, x.version < y.version

theorem changesOf_append_of_ne (h : e.name ≠ name) :
    changesOf name (history ++ [e]) = changesOf name history := by
  rw [changesOf, List.filter_append, List.filter_cons_of_neg (by simpa using h), List.filter_nil,
    List.append_nil, changesOf]

theorem changesOf_append_of_eq (h : e.name = name) :
    changesOf name (history ++ [e]) = changesOf name history ++ [e] := by
  rw [changesOf, List.filter_append, List.filter_cons_of_pos (by simpa using h), List.filter_nil,
    changesOf]

theorem unremoved_append_of_ne (h : e.name ≠ name) :
    unremoved name (history ++ [e]) = unremoved name history := by
  rw [unremoved, changesOf_append_of_ne h, unremoved]

theorem unremoved_append_define (h : e.name = name) (hdefine : e.action = .define) :
    unremoved name (history ++ [e]) = unremoved name history ++ [e] := by
  rw [unremoved, changesOf_append_of_eq h, List.reverse_append, List.reverse_singleton,
    List.singleton_append, List.takeWhile_cons_of_pos (by simpa using hdefine), List.reverse_cons,
    unremoved]

/-- The last of the definitions that stand is the last change of the name, if that defines it. -/
theorem getLast?_unremoved (name : String) (history : List Event) :
    (unremoved name history).getLast? =
      (changesOf name history).getLast?.filter (·.action = .define) := by
  rw [unremoved, List.getLast?_reverse, List.head?_takeWhile, List.head?_reverse]

theorem mem_of_mem_unremoved (h : e ∈ unremoved name history) : e ∈ history :=
  List.mem_of_mem_filter <| List.mem_reverse.mp <|
    (List.takeWhile_sublist _).subset (List.mem_reverse.mp h)

theorem Before.of_heads {history' : List Event} {a b : String} (h : Before history a b)
    (ha : (unremoved a history').head? = (unremoved a history).head?)
    (hb : (unremoved b history').head? = (unremoved b history).head?) : Before history' a b := by
  rw [Before, ha, hb]
  exact h

end Event

open Event

namespace Table

variable {t : Table} {d : Definition} {name : String} {location : Option Location}

theorem name_of_lookup (h : t.lookup name = some d) : d.name = name := by
  have hname := List.find?_some h
  exact of_decide_eq_true hname

theorem names_define (t : Table) (d : Definition) :
    (t.define d).names = if d.name ∈ t.names then t.names else t.names ++ [d.name] :=
  names_put { d with version := t.version + 1 } t.definitions

theorem history_define (t : Table) (d : Definition) :
    (t.define d).history = t.history ++ [⟨.define, d.name, t.version + 1, d.location⟩] := rfl

theorem mem_definitions_iff : d ∈ t.definitions ↔ t.lookup d.name = some d := by
  refine ⟨fun h => ?_, List.mem_of_find?_eq_some⟩
  cases hlookup : t.lookup d.name with
  | none => exact absurd (List.find?_eq_none.mp hlookup d h) (by simp)
  | some e =>
    have he := List.mem_of_find?_eq_some hlookup
    rw [List.inj_on_of_nodup_map t.nodup he h (name_of_lookup hlookup)]

theorem mem_names_iff : name ∈ t.names ↔ (t.lookup name).isSome = true := by
  constructor
  · intro h
    obtain ⟨d, hd, rfl⟩ := List.mem_map.mp h
    rw [mem_definitions_iff.mp hd]
    rfl
  · intro h
    obtain ⟨d, hd⟩ := Option.isSome_iff_exists.mp h
    exact mem_names_of_lookup hd

/-- Whether a table is what its history tells. -/
structure Replays (t : Table) : Prop where
  /-- The changes are numbered from one on. -/
  versions : ∀ i e, t.history[i]? = some e → e.version = i + 1
  /-- A name is defined if its last change defines it, and then by that change and at its place. -/
  lookup : ∀ name, (t.lookup name).map (fun d => (d.version, d.location)) =
    ((changesOf name t.history).getLast?.filter (·.action = .define)).map
      fun e => (e.version, e.location)
  /-- The names stand in the order of their first definitions since they were last removed. -/
  order : t.names.Pairwise (Before t.history)

namespace Replays

theorem empty : Replays ∅ where
  versions := nofun
  lookup _ := rfl
  order := .nil

/-- A name is defined if some definition of it stands. -/
theorem mem_names_iff (h : t.Replays) : name ∈ t.names ↔ unremoved name t.history ≠ [] := by
  have hlookup := h.lookup name
  rw [← getLast?_unremoved] at hlookup
  rw [Table.mem_names_iff, ← Option.isSome_map, hlookup, Option.isSome_map, Option.isSome_iff_ne_none,
    ne_eq, List.getLast?_eq_none_iff]

theorem version_le (h : t.Replays) {e : Event} (he : e ∈ t.history) :
    e.version ≤ t.history.length := by
  obtain ⟨i, hi, rfl⟩ := List.mem_iff_getElem.mp he
  rw [h.versions i _ (List.getElem?_eq_getElem hi)]
  exact hi

theorem versions_append (h : t.Replays) {action : Action} :
    ∀ i e, (t.history ++ [⟨action, name, t.version + 1, location⟩])[i]? = some e →
      e.version = i + 1 := by
  intro i e he
  rw [List.getElem?_append] at he
  split at he
  · exact h.versions i e he
  · rename_i hi
    rw [List.getElem?_singleton] at he
    split at he
    · rename_i hzero
      cases he
      show t.history.length + 1 = i + 1
      omega
    · cases he

theorem define (h : t.Replays) (d : Definition) : (t.define d).Replays where
  versions := h.versions_append
  lookup name := by
    rw [lookup_define, history_define]
    split
    · rename_i hname
      rw [changesOf_append_of_eq hname.symm, List.getLast?_concat]
      rfl
    · rename_i hname
      rw [changesOf_append_of_ne (Ne.symm hname)]
      exact h.lookup name
  order := by
    rw [names_define, history_define]
    let e : Event := ⟨.define, d.name, t.version + 1, d.location⟩
    split
    · -- a name that is defined again keeps its position
      rename_i hmem
      have hheads : ∀ a, (unremoved a (t.history ++ [e])).head? = (unremoved a t.history).head? := by
        intro a
        by_cases ha : e.name = a
        · rw [unremoved_append_define ha rfl,
            List.head?_append_of_ne_nil _ (ha ▸ h.mem_names_iff.mp hmem)]
        · rw [unremoved_append_of_ne ha]
      exact h.order.imp fun hab => hab.of_heads (hheads _) (hheads _)
    · rename_i hmem
      have hhead : ∀ a ∈ t.names,
          (unremoved a (t.history ++ [e])).head? = (unremoved a t.history).head? := by
        intro a ha
        rw [unremoved_append_of_ne]
        rintro rfl
        exact hmem ha
      refine List.pairwise_append.mpr ⟨?_, List.pairwise_singleton _ _, fun a ha b hb => ?_⟩
      · exact h.order.imp_of_mem fun ha hb hab => hab.of_heads (hhead _ ha) (hhead _ hb)
      · rw [List.mem_singleton.mp hb]
        have hnone : unremoved d.name t.history = [] :=
          Classical.not_not.mp (mt h.mem_names_iff.mpr hmem)
        have hlast : unremoved d.name (t.history ++ [e]) = unremoved d.name t.history ++ [e] :=
          unremoved_append_define rfl rfl
        rw [hnone, List.nil_append] at hlast
        obtain ⟨x, xs, hx⟩ := List.exists_cons_of_ne_nil (h.mem_names_iff.mp ha)
        have hstays : x ∈ unremoved a t.history := by
          rw [hx]
          exact List.mem_cons_self
        have hold := mem_of_mem_unremoved hstays
        refine ⟨x, ?_, e, ?_, Nat.lt_succ_of_le (h.version_le hold)⟩
        · rw [hhead a ha, hx]
          rfl
        · rw [hlast]
          rfl

theorem undefine (h : t.Replays) (name : String) (location : Option Location) :
    (t.undefine name location).Replays := by
  unfold Table.undefine
  split
  · rename_i hdefined
    let e : Event := ⟨.undefine, name, t.version + 1, location⟩
    refine ⟨h.versions_append, fun other => ?_, ?_⟩
    · have hremoved := lookup_undefine t name other location
      rw [Table.undefine, if_pos hdefined] at hremoved
      rw [hremoved]
      split
      · rename_i hname
        rw [changesOf_append_of_eq hname.symm, List.getLast?_concat]
        rfl
      · rename_i hname
        rw [changesOf_append_of_ne (Ne.symm hname)]
        exact h.lookup other
    · have hhead : ∀ a ∈ t.names.filter (· ≠ name),
          (unremoved a (t.history ++ [e])).head? = (unremoved a t.history).head? := by
        intro a ha
        rw [unremoved_append_of_ne]
        rintro rfl
        exact of_decide_eq_true (List.mem_filter.mp ha).2 rfl
      have horder := h.order.sublist (List.filter_sublist (p := (· ≠ name)))
      have hnames : (t.definitions.filter (·.name ≠ name)).map Definition.name =
          t.names.filter (· ≠ name) := by
        rw [names, List.filter_map]
        rfl
      show ((t.definitions.filter (·.name ≠ name)).map Definition.name).Pairwise _
      rw [hnames]
      exact horder.imp_of_mem fun ha hb hab => hab.of_heads (hhead _ ha) (hhead _ hb)
  · exact h

theorem withBuiltins (h : t.Replays) : t.withBuiltins.Replays :=
  List.foldlRecOn Builtin.all Table.define h fun _ h d _ => h.define d

/-! ### The definitions that are not built in -/

/-- A change is known by its number. -/
theorem event_inj (h : t.Replays) {x y : Event} (hx : x ∈ t.history) (hy : y ∈ t.history)
    (hversion : x.version = y.version) : x = y := by
  obtain ⟨i, hi, rfl⟩ := List.mem_iff_getElem.mp hx
  obtain ⟨j, hj, rfl⟩ := List.mem_iff_getElem.mp hy
  rw [h.versions i _ (List.getElem?_eq_getElem hi), h.versions j _ (List.getElem?_eq_getElem hj),
    Nat.add_right_cancel_iff] at hversion
  subst hversion
  rfl

theorem exists_event (h : t.Replays) (hd : d ∈ t.definitions) :
    ∃ e ∈ t.history, e.name = d.name ∧ e.version = d.version := by
  have hlookup := h.lookup d.name
  rw [mem_definitions_iff.mp hd, Option.map_some] at hlookup
  obtain ⟨e, he, hstamp⟩ := Option.map_eq_some_iff.mp hlookup.symm
  obtain ⟨hlast, -⟩ := Option.filter_eq_some_iff.mp he
  obtain ⟨hmem, hname⟩ := List.mem_filter.mp (List.mem_of_getLast? hlast)
  exact ⟨e, hmem, of_decide_eq_true hname, congrArg Prod.fst hstamp⟩

/-- A definition is known by the change that made it. -/
theorem definition_inj (h : t.Replays) {d e : Definition} (hd : d ∈ t.definitions)
    (he : e ∈ t.definitions) (hversion : d.version = e.version) : d = e := by
  obtain ⟨x, hx, hxname, hxversion⟩ := h.exists_event hd
  obtain ⟨y, hy, hyname, hyversion⟩ := h.exists_event he
  obtain rfl := h.event_inj hx hy (hxversion.trans (hversion.trans hyversion.symm))
  exact List.inj_on_of_nodup_map t.nodup hd he (hxname.symm.trans hyname)

theorem mem_userDefined_iff : d ∈ t.userDefined ↔ d.builtin = false ∧ t.lookup d.name = some d := by
  rw [userDefined, List.mem_mergeSort, List.mem_filter, mem_definitions_iff, Bool.not_eq_true',
    and_comm]

/-- The definitions that are not built in are listed in the order in which they were made. -/
theorem pairwise_userDefined (h : t.Replays) :
    t.userDefined.Pairwise fun d e => d.version < e.version := by
  have htrans : ∀ a b c : Definition, decide (a.version ≤ b.version) = true →
      decide (b.version ≤ c.version) = true → decide (a.version ≤ c.version) = true :=
    fun _ _ _ hab hbc => decide_eq_true (Nat.le_trans (of_decide_eq_true hab) (of_decide_eq_true hbc))
  have htotal : ∀ a b : Definition,
      (decide (a.version ≤ b.version) || decide (b.version ≤ a.version)) = true := by
    intro a b
    rw [Bool.or_eq_true, decide_eq_true_eq, decide_eq_true_eq]
    exact Nat.le_total a.version b.version
  have hsorted : t.userDefined.Pairwise fun d e => decide (d.version ≤ e.version) = true :=
    List.pairwise_mergeSort htrans htotal _
  have hnodup : t.userDefined.Nodup :=
    (List.mergeSort_perm _ _).nodup_iff.mpr ((List.Nodup.of_map _ t.nodup).filter _)
  have hmem : ∀ {d : Definition}, d ∈ t.userDefined → d ∈ t.definitions := fun hd =>
    mem_definitions_iff.mpr (mem_userDefined_iff.mp hd).2
  refine (hsorted.and hnodup).imp_of_mem fun hd he hde => ?_
  exact Nat.lt_of_le_of_ne (of_decide_eq_true hde.1) fun hversion =>
    hde.2 (h.definition_inj (hmem hd) (hmem he) hversion)

end Replays

end Table

/-! ## Changes -/

/-- A change that is asked of a table. -/
inductive Change
  | define (d : Definition)
  /-- the macro that a text describes, if it describes one -/
  | defineText (s : Source) (builtin : Bool)
  | undefine (name : String) (location : Option Location)
  | addBuiltins

/-- A change, in terms of one definition and one removal. -/
def Change.apply {α : Type} (define : α → Definition → α)
    (undefine : α → String → Option Location → α) : Change → α → α
  | .define d, table => define table d
  | .defineText s builtin, table =>
    match s.definition builtin with
    | .error _ => table
    | .ok d => define table d
  | .undefine name location, table => undefine table name location
  | .addBuiltins, table => Builtin.all.foldl define table

/-- What is done to tables that stand in a row. -/
inductive ShelfStep
  | change (index : Nat) (c : Change)
  /-- a copy of a table, put at the end of the row -/
  | copy (index : Nat)

/-- The tables after a step, where there is a table to take it with. -/
def ShelfStep.run {α : Type} (apply : Change → α → α) (shelf : List α) : ShelfStep → List α
  | .change index c => shelf.modify index (apply c)
  | .copy index => shelf ++ shelf[index]?.toList

namespace Table

/-- A table after a change. -/
def apply : Change → Table → Table := Change.apply define undefine

theorem Replays.apply {t : Table} (h : t.Replays) (c : Change) : (Table.apply c t).Replays := by
  cases c with
  | define d => exact h.define d
  | defineText s builtin =>
    rw [Table.apply, Change.apply]
    cases s.definition builtin with
    | error report => exact h
    | ok d => exact h.define d
  | undefine name location => exact h.undefine name location
  | addBuiltins => exact h.withBuiltins

end Table

section
variable {α β : Type} {R : α → β → Prop} {as : List α} {bs : List β}

theorem forall₂_modify {f : α → α} {g : β → β} (h : List.Forall₂ R as bs)
    (hfg : ∀ a b, R a b → R (f a) (g b)) (index : Nat) :
    List.Forall₂ R (as.modify index f) (bs.modify index g) := by
  induction h generalizing index with
  | nil =>
    rw [List.modify_nil, List.modify_nil]
    exact .nil
  | cons hab h ih =>
    cases index with
    | zero => exact .cons (hfg _ _ hab) h
    | succ index => exact .cons hab (ih index)

theorem forall₂_getElem?_toList (h : List.Forall₂ R as bs) (index : Nat) :
    List.Forall₂ R as[index]?.toList bs[index]?.toList := by
  induction h generalizing index with
  | nil => exact .nil
  | cons hab h ih =>
    cases index with
    | zero => exact .cons hab .nil
    | succ index => exact ih index

/-- Rows that correspond still do after a step, if single tables do after a change. -/
theorem ShelfStep.forall₂_run {f : Change → α → α} {g : Change → β → β}
    (h : List.Forall₂ R as bs) (hfg : ∀ c a b, R a b → R (f c a) (g c b))
    (step : ShelfStep) : List.Forall₂ R (step.run f as) (step.run g bs) := by
  cases step with
  | change index c => exact forall₂_modify h (hfg c) index
  | copy index => exact List.rel_append h (forall₂_getElem?_toList h index)

end

/-! ## Tables that count their changes -/

/-- A table that keeps count of its changes. -/
structure Ledger where
  definitions : List Definition := []
  history : List Event := []
  counter : Nat := 0

namespace Ledger

variable {l : Ledger} {t : Table}

/-- Makes a definition. The definition that it took the place of is a conflict if it is another one. -/
def define (l : Ledger) (d : Definition) : Ledger × Option Conflict :=
  let current := { d with version := l.counter + 1 }
  let previous := l.definitions.find? (·.name = d.name)
  ({ definitions := Table.put current l.definitions
     history := l.history ++ [⟨.define, d.name, l.counter + 1, d.location⟩]
     counter := l.counter + 1 },
   match previous with
   | none => none
   | some previous => if previous.sameAs current then none else some ⟨previous, current⟩)

/-- Removes the definition of a name, if there is one. -/
def undefine (l : Ledger) (name : String) (location : Option Location) : Ledger :=
  match l.definitions.find? (·.name = name) with
  | none => l
  | some _ =>
    { definitions := l.definitions.filter (·.name ≠ name)
      history := l.history ++ [⟨.undefine, name, l.counter + 1, location⟩]
      counter := l.counter + 1 }

/-- Whether a ledger holds what a table holds, with the number of its changes. -/
structure Keeps (l : Ledger) (t : Table) : Prop where
  definitions : l.definitions = t.definitions
  history : l.history = t.history
  counter : l.counter = t.history.length

namespace Keeps

theorem empty : Keeps {} ∅ := ⟨rfl, rfl, rfl⟩

theorem define (h : l.Keeps t) (d : Definition) : (l.define d).1.Keeps (t.define d) := by
  obtain ⟨hdefinitions, hhistory, hcounter⟩ := h
  refine ⟨?_, ?_, ?_⟩
  · rw [Ledger.define, hdefinitions, hcounter]
    rfl
  · rw [Ledger.define, hhistory, hcounter]
    rfl
  · rw [Table.history_define, List.length_append, Ledger.define, hcounter]
    rfl

theorem conflict (h : l.Keeps t) (d : Definition) : (l.define d).2 = t.conflict? d := by
  rw [Ledger.define, Table.conflict?, h.definitions, h.counter]
  rfl

theorem undefine (h : l.Keeps t) (name : String) (location : Option Location) :
    (l.undefine name location).Keeps (t.undefine name location) := by
  obtain ⟨hdefinitions, hhistory, hcounter⟩ := h
  have hfind : l.definitions.find? (·.name = name) = t.lookup name := by
    rw [hdefinitions]
    rfl
  rw [Ledger.undefine, Table.undefine, hfind, Table.isDefined]
  cases t.lookup name with
  | none => exact ⟨hdefinitions, hhistory, hcounter⟩
  | some d =>
    refine ⟨?_, ?_, ?_⟩
    · rw [hdefinitions]
      rfl
    · rw [hhistory, hcounter]
      rfl
    · let e : Event := ⟨.undefine, name, t.version + 1, location⟩
      show l.counter + 1 = (t.history ++ [e]).length
      rw [hcounter, List.length_append, List.length_singleton]

end Keeps

/-- A ledger after a change. -/
def apply : Change → Ledger → Ledger := Change.apply (fun l d => (l.define d).1) undefine

theorem Keeps.apply (h : l.Keeps t) (c : Change) :
    (Ledger.apply c l).Keeps (Table.apply c t) := by
  cases c with
  | define d => exact h.define d
  | defineText s builtin =>
    rw [Ledger.apply, Table.apply, Change.apply, Change.apply]
    cases s.definition builtin with
    | error report => exact h
    | ok d => exact h.define d
  | undefine name location => exact h.undefine name location
  | addBuiltins =>
    have hfold : ∀ (ds : List Definition) (l : Ledger) (t : Table), l.Keeps t →
        (ds.foldl (fun l d => (l.define d).1) l).Keeps (ds.foldl Table.define t) := by
      intro ds
      induction ds with
      | nil => exact fun _ _ h => h
      | cons d ds ih => exact fun l t h => ih _ _ (h.define d)
    exact hfold Builtin.all l t h

/-- What a table and its history tell of each other, and of the ledger in step with them. -/
structure Accounts (l : Ledger) (t : Table) : Prop where
  keeps : l.Keeps t
  replays : t.Replays
  /-- The definitions that are not built in are listed in the order of the changes that made them. -/
  sorted : t.userDefined.Pairwise fun d e => d.version < e.version
  userDefined : ∀ d, d ∈ t.userDefined ↔ d.builtin = false ∧ t.lookup d.name = some d
  /-- A definition is given the next number. -/
  next : ∀ d, (t.define d).lookup d.name = some { d with version := t.history.length + 1 }
  /-- A name without a definition is removed without a change. -/
  absent : ∀ name location, t.lookup name = none →
    l.undefine name location = l ∧ t.undefine name location = t
  /-- Only a definition that is written differently is a conflict. -/
  conflict : ∀ d, (l.define d).2 = t.conflict? d ∧
    ((t.conflict? d).isSome = true ↔ ∃ previous, t.lookup d.name = some previous ∧
      ¬ (previous.shape = d.shape ∧
        previous.replacement.map Token.form = d.replacement.map Token.form))

theorem isSome_conflict?_iff (t : Table) (d : Definition) :
    (t.conflict? d).isSome = true ↔ ∃ previous, t.lookup d.name = some previous ∧
      ¬ (previous.shape = d.shape ∧
        previous.replacement.map Token.form = d.replacement.map Token.form) := by
  have hsame : ∀ previous : Definition, previous.sameAs d = true ↔ previous.shape = d.shape ∧
      previous.replacement.map Token.form = d.replacement.map Token.form := by
    intro previous
    rw [Definition.sameAs, Bool.and_eq_true, decide_eq_true_eq, decide_eq_true_eq]
    rfl
  rw [Table.conflict?]
  cases t.lookup d.name with
  | none => exact iff_of_false Bool.false_ne_true fun ⟨_, h, _⟩ => nomatch h
  | some previous =>
    simp only [Option.some.injEq, exists_eq_left', ← hsame]
    cases previous.sameAs d with
    | true => simp
    | false => simp

theorem Keeps.accounts (h : l.Keeps t) (hreplays : t.Replays) : l.Accounts t where
  keeps := h
  replays := hreplays
  sorted := hreplays.pairwise_userDefined
  userDefined _ := Table.Replays.mem_userDefined_iff
  next d := by
    rw [Table.lookup_define, if_pos rfl]
    rfl
  absent name location hname := by
    have hfind : l.definitions.find? (·.name = name) = none := by
      rw [h.definitions]
      exact hname
    refine ⟨?_, ?_⟩
    · rw [Ledger.undefine, hfind]
    · rw [Table.undefine, Table.isDefined, hname]
      rfl
  conflict d := ⟨h.conflict d, isSome_conflict?_iff t d⟩

/-- Whatever is done to tables, beginning with an empty one, each of them is what its history tells. -/
theorem accounts_of_steps (steps : List ShelfStep) :
    List.Forall₂ Accounts (steps.foldl (ShelfStep.run Ledger.apply) [{}])
      (steps.foldl (ShelfStep.run Table.apply) [∅]) := by
  have hrun : ∀ (steps : List ShelfStep) (ledgers : List Ledger) (tables : List Table),
      List.Forall₂ (fun l t => Keeps l t ∧ t.Replays) ledgers tables →
        List.Forall₂ (fun l t => Keeps l t ∧ t.Replays)
          (steps.foldl (ShelfStep.run Ledger.apply) ledgers)
          (steps.foldl (ShelfStep.run Table.apply) tables) := by
    intro steps
    induction steps with
    | nil => exact fun _ _ h => h
    | cons step steps ih =>
      exact fun ledgers tables h => ih _ _
        (ShelfStep.forall₂_run h (fun c _ _ hlt => ⟨hlt.1.apply c, hlt.2.apply c⟩) step)
  have hstart : List.Forall₂ (fun l t => Keeps l t ∧ t.Replays) [{}] [∅] :=
    .cons ⟨Keeps.empty, Table.Replays.empty⟩ .nil
  exact (hrun steps _ _ hstart).imp fun _ _ h => h.1.accounts h.2

end Ledger

end CPreprocessor
