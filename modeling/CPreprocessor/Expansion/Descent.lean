import CPreprocessor.Token

/-!
Why expansion ends. `Descent names` relates the hide sets of the tokens still to be expanded after a
step to those before it, where `names` are the names of the macros. It is well founded
(`acc_descent`), for any hide sets at the start: the tokens of a replacement hide at least one more
name than the tokens below them are known to hide, and there are only so many names.
-/

namespace CPreprocessor

/-- One step of expansion, seen through the hide sets of the pending tokens: the later ones come
first. -/
inductive Descent (names : List String) : List HideSet → List HideSet → Prop
  /-- The first token is done with, and perhaps others are left out. -/
  | drop {first : HideSet} {later rest : List HideSet} (h : later.Sublist rest) :
    Descent names later (first :: rest)
  /-- The first token is replaced by tokens that hide its name and all that it hides. -/
  | object {first : HideSet} {body rest : List HideSet} {name : String} (mem : name ∈ names)
    (fresh : name ∉ first)
    (hide : ∀ b ∈ body, name ∈ b ∧ ∀ x, x ∈ first → x ∈ b) :
    Descent names (body ++ rest) (first :: rest)
  /-- The tokens from the first one up to some closing one are replaced by tokens that hide its name
  and all that both ends hide. -/
  | call {first closing : HideSet} {between body rest : List HideSet} {name : String}
    (mem : name ∈ names) (fresh : name ∉ first)
    (hide : ∀ b ∈ body, name ∈ b ∧ ∀ x, x ∈ first → x ∈ closing → x ∈ b) :
    Descent names (body ++ rest) (first :: (between ++ closing :: rest))

namespace Descent

variable {names : List String}

/-- Everything that a step may leave of `rest` once the tokens above it, which hide all of `base`,
are used up ends. -/
def Safe (names : List String) (base : List String) (rest : List HideSet) : Prop :=
  ∀ later : List HideSet, later.Sublist rest →
    Acc (Descent names) later ∧
    ∀ (before : List HideSet) (closing : HideSet) (after : List HideSet),
      later = before ++ closing :: after →
      ∀ name ∈ names, name ∉ base → ∀ body : List HideSet,
        (∀ b ∈ body, name ∈ b ∧ ∀ x ∈ base, x ∈ closing → x ∈ b) →
        Acc (Descent names) (body ++ after)

theorem Safe.sublist {base : List String} {rest later : List HideSet}
    (h : Safe names base rest) (hs : later.Sublist rest) : Safe names base later :=
  fun l hl => h l (hl.trans hs)

/-- How many names `base` leaves. -/
def left (names base : List String) : Nat := (names.filter (· ∉ base)).length

theorem left_cons_lt {base : List String} {name : String} (hm : name ∈ names)
    (hn : name ∉ base) : left names (name :: base) < left names base := by
  unfold left
  induction names with
  | nil => simp at hm
  | cons a as ih =>
    have hle : ∀ l : List String,
        (l.filter (· ∉ name :: base)).length ≤ (l.filter (· ∉ base)).length := by
      intro l
      rw [← List.countP_eq_length_filter, ← List.countP_eq_length_filter]
      apply List.countP_mono_left
      intro x _ hx
      simp_all
    rcases List.mem_cons.1 hm with rfl | hm
    · have := hle as
      simp [hn]
      simpa using Nat.lt_succ_of_le this
    · have := ih hm
      by_cases ha : a ∈ base
      · simpa [ha] using this
      · by_cases hna : a = name
        · have := hle as
          simp [hna, hn]
          simpa using Nat.lt_succ_of_le this
        · simpa [ha, hna] using this

theorem acc_nil : Acc (Descent names) [] := Acc.intro _ fun _ h => by cases h

/-- A token after some others is one of the first of them or one of the rest. -/
theorem closing_cases {top rest before after : List HideSet} {closing : HideSet}
    (h : top ++ rest = before ++ closing :: after) :
    (∃ between, rest = between ++ closing :: after) ∨
      ∃ between, top = before ++ closing :: between ∧ after = between ++ rest := by
  rcases List.append_eq_append_iff.1 h with ⟨between, -, hrest⟩ | ⟨between, htop, hcons⟩
  · exact .inl ⟨between, hrest⟩
  · cases between with
    | nil => exact .inl ⟨[], hcons.symm⟩
    | cons first between =>
      obtain ⟨rfl, rfl⟩ := List.cons.inj hcons
      exact .inr ⟨between, htop, rfl⟩

/-- Whether all tokens hide all of `base`. -/
def Hides (base : List String) (tokens : List HideSet) : Prop := ∀ h ∈ tokens, ∀ x ∈ base, x ∈ h

theorem Hides.sublist {base : List String} {tokens tokens' : List HideSet} (h : Hides base tokens)
    (hs : tokens'.Sublist tokens) : Hides base tokens' :=
  fun t ht => h t (hs.subset ht)

/-- What holds of tokens that are used up above `rest` one by one: they end, and so do the tokens that
hide one name more, as far as what is left of `rest` allows. -/
theorem Safe.append {base : List String} {rest : List HideSet} (hrest : Safe names base rest)
    (tail : List HideSet) (htail : Hides base tail)
    (shorter : ∀ top later : List HideSet, top.length ≤ tail.length → Hides base top →
      later.Sublist rest → Acc (Descent names) (top ++ later))
    (deeper : ∀ (body later : List HideSet) (name : String), name ∈ names → name ∉ base →
      Hides (name :: base) body → Safe names (name :: base) later →
      Acc (Descent names) (body ++ later))
    {name : String} (hmem : name ∈ names) (hfresh : name ∉ base) :
    Safe names (name :: base) (tail ++ rest) := by
  generalize hlength : tail.length = length at shorter
  induction length using Nat.strongRecOn generalizing tail name with
  | ind length ih =>
    intro later hlater
    obtain ⟨top, kept, rfl, htop, hkept⟩ := List.sublist_append_iff.1 hlater
    have hhides := htail.sublist htop
    refine ⟨shorter top kept (hlength ▸ htop.length_le) hhides hkept, ?_⟩
    intro before closing after heq other hother hnew body hbody
    have hnew' : other ∉ base := fun h => hnew (List.mem_cons_of_mem _ h)
    have hbody' : ∀ b ∈ body, other ∈ b ∧ ∀ x ∈ base, x ∈ closing → x ∈ b := fun b hb =>
      ⟨(hbody b hb).1, fun x hx => (hbody b hb).2 x (List.mem_cons_of_mem _ hx)⟩
    rcases closing_cases heq with ⟨between, hbetween⟩ | ⟨between, rfl, rfl⟩
    · exact (hrest kept hkept).2 between closing after hbetween other hother hnew' body hbody'
    · have hclosing : ∀ x ∈ base, x ∈ closing := hhides closing (by simp)
      have hbetween : between.length < length := by
        have := htop.length_le
        simp only [List.length_append, List.length_cons] at this
        omega
      have hsafe := ih _ hbetween between (hhides.sublist (by simp)) hother hnew' rfl
        fun top later hle => shorter top later (Nat.le_of_lt (Nat.lt_of_le_of_lt hle hbetween))
      refine deeper body _ other hother hnew' ?_ (hsafe.sublist (List.Sublist.append_left hkept _))
      intro b hb x hx
      rcases List.mem_cons.1 hx with rfl | hx
      · exact (hbody' b hb).1
      · exact (hbody' b hb).2 x hx (hclosing x hx)

/-- Tokens that all hide `base` end on top of tokens that end. -/
theorem acc_append (n : Nat) : ∀ base : List String, left names base = n →
    ∀ (top rest : List HideSet), Hides base top → Safe names base rest →
      Acc (Descent names) (top ++ rest) := by
  induction n using Nat.strongRecOn with
  | ind n outer =>
    intro base hbase top
    have deeper : ∀ (body later : List HideSet) (name : String), name ∈ names → name ∉ base →
        Hides (name :: base) body → Safe names (name :: base) later →
        Acc (Descent names) (body ++ later) := fun body later name hmem hfresh =>
      outer _ (hbase ▸ left_cons_lt hmem hfresh) _ rfl body later
    generalize hlength : top.length = length
    induction length using Nat.strongRecOn generalizing top with
    | ind length inner =>
      intro rest htop hrest
      cases top with
      | nil => exact (hrest rest (List.Sublist.refl _)).1
      | cons first tail =>
        obtain ⟨hfirst, htail⟩ := List.forall_mem_cons.mp htop
        have shorter : ∀ top later : List HideSet, top.length ≤ tail.length → Hides base top →
            later.Sublist rest → Acc (Descent names) (top ++ later) := fun top later hle hhides hlater =>
          inner _ (hlength ▸ Nat.lt_succ_of_le hle) _ rfl later hhides (hrest.sublist hlater)
        refine Acc.intro _ fun later hstep => ?_
        rw [List.cons_append] at hstep
        generalize hold : tail ++ rest = old at hstep
        cases hstep with
        | drop h =>
          subst hold
          obtain ⟨top, kept, rfl, htop, hkept⟩ := List.sublist_append_iff.1 h
          exact shorter top kept htop.length_le (Hides.sublist htail htop) hkept
        | @object _ body _ name mem fresh hide =>
          subst hold
          have hfresh : name ∉ base := fun h => fresh (hfirst name h)
          refine deeper body (tail ++ rest) name mem hfresh (fun b hb => ?_)
            (hrest.append tail htail shorter deeper mem hfresh)
          exact List.forall_mem_cons.mpr
            ⟨(hide b hb).1, fun x hx => (hide b hb).2 x (hfirst x hx)⟩
        | @call _ closing before body after name mem fresh hide =>
          have hfresh : name ∉ base := fun h => fresh (hfirst name h)
          rcases closing_cases hold with ⟨between, hbetween⟩ | ⟨between, htop, rfl⟩
          · exact (hrest rest (List.Sublist.refl _)).2 between closing after hbetween name mem hfresh
              body fun b hb => ⟨(hide b hb).1, fun x hx => (hide b hb).2 x (hfirst x hx)⟩
          · subst htop
            have hclosing : ∀ x ∈ base, x ∈ closing := htail closing (by simp)
            have hlength : between.length ≤ (before ++ closing :: between).length := by
              simp only [List.length_append, List.length_cons]
              omega
            have hsafe := hrest.append between (Hides.sublist htail (by simp))
              (fun top later hle => shorter top later (Nat.le_trans hle hlength)) deeper mem hfresh
            refine deeper body _ name mem hfresh (fun b hb => ?_) hsafe
            exact List.forall_mem_cons.mpr
              ⟨(hide b hb).1, fun x hx => (hide b hb).2 x (hfirst x hx) (hclosing x hx)⟩

end Descent

/-- Expansion ends from any pending tokens. -/
theorem acc_descent (names : List String) (pending : List HideSet) :
    Acc (Descent names) pending := by
  have safe : Descent.Safe names [] [] := by
    intro later hl
    obtain rfl := List.sublist_nil.1 hl
    exact ⟨Descent.acc_nil, fun before closing after h => by simp at h⟩
  simpa using Descent.acc_append _ [] rfl pending [] (fun _ _ => nofun) safe

/-- The names of a table and the hide sets of the tokens still to be expanded. -/
structure Workload where
  names : List String
  pending : List HideSet

instance : WellFoundedRelation Workload where
  rel later earlier := later.names = earlier.names ∧
    Descent earlier.names later.pending earlier.pending
  wf := by
    refine ⟨fun w => ?_⟩
    obtain ⟨names, pending⟩ := w
    induction acc_descent names pending with
    | intro pending _ ih =>
      refine Acc.intro _ fun later h => ?_
      obtain ⟨names', later⟩ := later
      obtain ⟨rfl, h⟩ := h
      exact ih later h

end CPreprocessor
