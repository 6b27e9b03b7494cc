import CPreprocessor.Report

/-!
# Computations that may fail

Outcomes and traversals, and computations that take nothing for granted.
-/

namespace CPreprocessor

section
variable {α β ε : Type}

theorem map_eq_ok_iff {f : α → β} {x : Except ε α} {b : β} :
    x.map f = .ok b ↔ ∃ a, x = .ok a ∧ f a = b := by
  cases x with
  | error fault => simp [Except.map]
  | ok a => simp [Except.map]

theorem map_eq_error_iff {f : α → β} {x : Except ε α} {fault : ε} :
    x.map f = .error fault ↔ x = .error fault := by
  cases x with
  | error fault => simp [Except.map]
  | ok a => simp [Except.map]

theorem toOption_eq_some_iff {x : Except ε α} {a : α} : x.toOption = some a ↔ x = .ok a := by
  cases x with
  | error fault => simp [Except.toOption]
  | ok a => simp [Except.toOption]

/-- A computation with its outcome moved, whether it fails or not. -/
def moved (fail : ε → ε) (move : α → α) (outcome : Except ε α) : Except ε α :=
  (outcome.map move).mapError fail

@[simp] theorem moved_ok (fail : ε → ε) (move : α → α) (a : α) :
    moved fail move (.ok a) = .ok (move a) := rfl

@[simp] theorem moved_error (fail : ε → ε) (move : α → α) (fault : ε) :
    moved fail move (.error fault) = .error (fail fault) := rfl

theorem ok_bind (a : α) (f : α → Except ε β) : (.ok a >>= f) = f a := rfl

/-! ## Traversals of a list -/

theorem mapM_nil_except (f : α → Except ε β) : [].mapM f = .ok [] := rfl

/-- The first failure of a traversal, from the left, is its outcome. -/
theorem mapM_cons_except (f : α → Except ε β) (a : α) (as : List α) :
    (a :: as).mapM f =
      match f a with
      | .error x => .error x
      | .ok b => (as.mapM f).map (b :: ·) := by
  rw [List.mapM_cons]
  cases f a with
  | error x => rfl
  | ok b => cases as.mapM f <;> rfl

theorem mapM_map_except {γ : Type} (f : α → Except ε β) (g : β → γ) (as : List α) :
    as.mapM (fun a => (f a).map g) = (as.mapM f).map (List.map g) := by
  induction as with
  | nil => rfl
  | cons a as ih =>
    rw [mapM_cons_except, mapM_cons_except, ih]
    cases f a with
    | error x => rfl
    | ok b => cases as.mapM f <;> rfl

theorem length_of_mapM_eq_ok {f : α → Except ε β} {as : List α} {bs : List β}
    (h : as.mapM f = .ok bs) : bs.length = as.length := by
  induction as generalizing bs with
  | nil =>
    cases h
    rfl
  | cons a as ih =>
    rw [mapM_cons_except] at h
    split at h
    · cases h
    · obtain ⟨bs, hbs, rfl⟩ := map_eq_ok_iff.mp h
      rw [List.length_cons, List.length_cons, ih hbs]

end

/-! ## Checked computations

The functions of this library are total: where a list is too short they go on with a default. A
checked computation has no defaults. It stops where it uses something that is not there (`found`), and
an error stops it until a handler for the category of that error is reached (`catching`).
-/

/-- Why a checked computation stops: an error was raised, or there is nothing at an index, under a key
or among the digits where there must be something. -/
inductive Stop (ε : Type)
  | raised (error : ε)
  | outOfRange
deriving DecidableEq

section
variable {α β ε ε' : Type}

/-- What an access finds. -/
def found : Option α → Except (Stop ε) α
  | some a => .ok a
  | none => .error .outOfRange

/-- A computation that raises errors, among checked ones. -/
def raising (x : Except ε α) : Except (Stop ε) α := x.mapError .raised

/-- An outcome, unless there is an error to be raised. -/
def settled (error? : Option ε) (a : α) : Except (Stop ε) α :=
  match error? with
  | some error => .error (.raised error)
  | none => .ok a

/-- A checked computation that raises other errors in the place of its own. -/
def reraising (f : ε → ε') (x : Except (Stop ε) α) : Except (Stop ε') α :=
  x.mapError fun
    | .raised error => .raised (f error)
    | .outOfRange => .outOfRange

/-- A computation with a handler for the errors of a category and its special cases. -/
def catching (category : Category) (x : Except (Stop Report) α)
    (handler : Report → Except (Stop Report) α) : Except (Stop Report) α :=
  match x with
  | .error (.raised report) =>
    if report.category.ancestry.contains category then handler report else .error (.raised report)
  | .error .outOfRange => .error .outOfRange
  | .ok a => .ok a

theorem found_eq_ok_iff {o : Option α} {a : α} : (found o : Except (Stop ε) α) = .ok a ↔ o = some a := by
  cases o with
  | none => exact ⟨nofun, nofun⟩
  | some b => simp [found]

theorem found_getElem? {as : List α} {index : Nat} (h : index < as.length) :
    (found as[index]? : Except (Stop ε) α) = .ok as[index] := by
  rw [List.getElem?_eq_getElem h]
  rfl

theorem raising_ok (a : α) : raising (.ok a : Except ε α) = .ok a := rfl

theorem settled_none (a : α) : (settled none a : Except (Stop ε) α) = .ok a := rfl

theorem settled_map (f : α → β) (error? : Option ε) (a : α) :
    (settled error? a).map f = settled error? (f a) := by
  cases error? with
  | none => rfl
  | some error => rfl

theorem raising_map (f : α → β) (x : Except ε α) : raising (x.map f) = (raising x).map f := by
  cases x with
  | error error => rfl
  | ok a => rfl

theorem raising_eq_ok_iff {x : Except ε α} {a : α} : raising x = .ok a ↔ x = .ok a := by
  cases x with
  | error error => exact ⟨nofun, nofun⟩
  | ok b => simp [raising_ok]

theorem raising_eq_error_iff {x : Except ε α} {stop : Stop ε} :
    raising x = .error stop ↔ ∃ error, x = .error error ∧ stop = .raised error := by
  cases x with
  | error error =>
    refine ⟨fun h => ⟨error, rfl, (Except.error.inj h).symm⟩, ?_⟩
    rintro ⟨_, ⟨⟩, rfl⟩
    rfl
  | ok a =>
    constructor
    · intro h
      cases h
    · rintro ⟨_, ⟨⟩, -⟩

/-- A traversal finds all it needs if each of its steps does. -/
theorem mapM_raising {f : α → Except ε β} {g : α → Except (Stop ε) β} {as : List α}
    (h : ∀ a ∈ as, g a = raising (f a)) : as.mapM g = raising (as.mapM f) := by
  induction as with
  | nil => rfl
  | cons a as ih =>
    obtain ⟨ha, has⟩ := List.forall_mem_cons.mp h
    rw [mapM_cons_except, mapM_cons_except, ha, ih has]
    cases f a with
    | error error => rfl
    | ok b => exact (raising_map (b :: ·) (as.mapM f)).symm

end

/-- A handler for all errors of this library takes those and no others. -/
theorem catching_preprocessor {α : Type} (report : Report) (handler : Report → Except (Stop Report) α) :
    catching .preprocessor (.error (.raised report)) handler =
      if report.category.isOwn then handler report else .error (.raised report) := rfl

end CPreprocessor
