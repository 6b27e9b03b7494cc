import CPreprocessor.Proofs.Expansion.Placemarker

/-!
# What is collected as arguments

An argument list reaches to the first `)` that closes its `(`, and an invocation is unterminated only
where there is none. No token in between is lost but layout, and no token is taken twice: the arguments
with commas between them are the significant tokens of the list (`Expander.call_collects`). What holds
after each token of the list is `ArgumentList.Reading`.
-/

namespace CPreprocessor

/-! ## Parentheses -/

/-- Whether every parenthesis in some tokens has its partner there. -/
inductive Balanced : List Token → Prop
  | nil : Balanced []
  | token {t : Token} {tokens : List Token} (hopen : t.isPunctuator "(" = false)
    (hclose : t.isPunctuator ")" = false) (h : Balanced tokens) : Balanced (t :: tokens)
  | group {opening closing : Token} {inner tokens : List Token}
    (hopen : opening.isPunctuator "(" = true) (hinner : Balanced inner)
    (hclose : closing.isPunctuator ")" = true) (h : Balanced tokens) :
    Balanced (opening :: (inner ++ closing :: tokens))

/-- Whether a token after some others is the `)` for a `(` before all of them. -/
def Closes (taken : List Token) (closing : Token) : Prop :=
  closing.isPunctuator ")" = true ∧ Balanced taken

/-- Whether some tokens have a comma outside of all parentheses. -/
def HasComma (tokens : List Token) : Prop :=
  ∃ before comma after, tokens = before ++ comma :: after ∧ comma.isPunctuator "," = true ∧
    Balanced before

/-- How many parentheses are open after some tokens, if none is closed that was not opened. -/
def openAfter (depth : Nat) : List Token → Option Nat
  | [] => some depth
  | t :: ts =>
    if t.isPunctuator "(" then openAfter (depth + 1) ts
    else if t.isPunctuator ")" then if depth = 0 then none else openAfter (depth - 1) ts
    else openAfter depth ts

variable {t closing : Token} {tokens before after : List Token} {depth n : Nat}

theorem openAfter_append (depth : Nat) (before after : List Token) :
    openAfter depth (before ++ after) = (openAfter depth before).bind (openAfter · after) := by
  induction before generalizing depth with
  | nil => rfl
  | cons t ts ih =>
    rw [List.cons_append, openAfter, openAfter, ih, ih, ih]
    split
    · rfl
    split
    · split
      · rfl
      · rfl
    · rfl

theorem not_isPunctuator_of_isLayout (h : t.isLayout = true) (text : String) :
    t.isPunctuator text = false := by
  refine Token.isPunctuator_eq_false_of_kind fun hkind => ?_
  rw [Token.isLayout, hkind] at h
  cases h

theorem openAfter_cons_of_isLayout (h : t.isLayout = true) :
    openAfter depth (t :: tokens) = openAfter depth tokens := by
  rw [openAfter, not_isPunctuator_of_isLayout h, not_isPunctuator_of_isLayout h,
    if_neg Bool.false_ne_true, if_neg Bool.false_ne_true]

theorem openAfter_of_isLayout (h : ∀ t ∈ tokens, t.isLayout = true) :
    openAfter depth tokens = some depth := by
  induction tokens with
  | nil => rfl
  | cons t ts ih =>
    obtain ⟨ht, hts⟩ := List.forall_mem_cons.mp h
    rw [openAfter_cons_of_isLayout ht, ih hts]

theorem length_lt_of_eq_append (h : tokens = before ++ t :: after) : after.length < tokens.length := by
  rw [h, List.length_append, List.length_cons]
  omega

/-- What is open beyond the last parenthesis is closed first. -/
theorem exists_group {depth : Nat} {tokens : List Token} (h : openAfter (depth + 1) tokens = some 0) :
    ∃ inner closing after, tokens = inner ++ closing :: after ∧ Closes inner closing ∧
      openAfter depth after = some 0 := by
  match tokens with
  | [] => cases h
  | t :: ts =>
    rw [openAfter] at h
    split at h
    · rename_i hopen
      obtain ⟨inner, closing, after, hts, ⟨hclosing, hinner⟩, hafter⟩ := exists_group h
      have hshorter : after.length < ts.length := length_lt_of_eq_append hts
      obtain ⟨inner', closing', after', rfl, ⟨hclosing', hinner'⟩, hafter'⟩ := exists_group hafter
      subst hts
      refine ⟨t :: (inner ++ closing :: inner'), closing', after', ?_, ⟨hclosing', ?_⟩, hafter'⟩
      · rw [List.cons_append, List.append_assoc, List.cons_append]
      · exact .group hopen hinner hclosing hinner'
    · rename_i hopen
      split at h
      · rename_i hclose
        rw [if_neg (Nat.succ_ne_zero depth)] at h
        exact ⟨[], t, ts, rfl, ⟨hclose, .nil⟩, h⟩
      · rename_i hclose
        obtain ⟨inner, closing, after, rfl, ⟨hclosing, hinner⟩, hafter⟩ := exists_group h
        exact ⟨t :: inner, closing, after, rfl,
          ⟨hclosing, .token (Bool.eq_false_iff.mpr hopen) (Bool.eq_false_iff.mpr hclose) hinner⟩, hafter⟩
termination_by tokens.length
decreasing_by all_goals simp only [List.length_cons]; omega

theorem balanced_of_openAfter {tokens : List Token} (h : openAfter 0 tokens = some 0) :
    Balanced tokens := by
  match tokens with
  | [] => exact .nil
  | t :: ts =>
    rw [openAfter] at h
    split at h
    · rename_i hopen
      obtain ⟨inner, closing, after, hts, ⟨hclosing, hinner⟩, hafter⟩ := exists_group h
      have hshorter : after.length < ts.length := length_lt_of_eq_append hts
      rw [hts]
      exact .group hopen hinner hclosing (balanced_of_openAfter hafter)
    · rename_i hopen
      split at h
      · cases h
      · rename_i hclose
        exact .token (Bool.eq_false_iff.mpr hopen) (Bool.eq_false_iff.mpr hclose)
          (balanced_of_openAfter h)
termination_by tokens.length
decreasing_by all_goals simp only [List.length_cons]; omega

theorem Balanced.openAfter_eq (h : Balanced tokens) (depth : Nat) :
    openAfter depth tokens = some depth := by
  induction h generalizing depth with
  | nil => rfl
  | token hopen hclose _ ih =>
    rw [openAfter, hopen, hclose, if_neg Bool.false_ne_true, if_neg Bool.false_ne_true, ih]
  | @group opening closing inner tokens hopen hinner hclose h ihinner ih =>
    have hnot : closing.isPunctuator "(" = false :=
      Bool.eq_false_iff.mpr fun hboth => absurd (Token.text_eq_of_isPunctuator hboth hclose) (by decide)
    rw [openAfter, if_pos hopen, openAfter_append, ihinner, Option.bind_some, openAfter, hnot,
      if_neg Bool.false_ne_true, if_pos hclose, if_neg (Nat.succ_ne_zero depth), Nat.add_sub_cancel, ih]

/-- Parentheses have their partners where no more of them are closed than opened, and as many. -/
theorem balanced_iff : Balanced tokens ↔ openAfter 0 tokens = some 0 :=
  ⟨fun h => h.openAfter_eq 0, balanced_of_openAfter⟩

/-! ## Layout around an argument -/

theorem exists_around (tokens : List Token) :
    ∃ lead trail, (∀ t ∈ lead, t.isLayout = true) ∧ (∀ t ∈ trail, t.isLayout = true) ∧
      tokens = lead ++ (trimLayout tokens ++ trail) := by
  refine ⟨tokens.takeWhile Token.isLayout, ((skipLayout tokens).reverse.takeWhile Token.isLayout).reverse,
    fun t ht => List.mem_takeWhile_imp ht, fun t ht => List.mem_takeWhile_imp (List.mem_reverse.mp ht), ?_⟩
  have htrim : trimLayout tokens ++ ((skipLayout tokens).reverse.takeWhile Token.isLayout).reverse =
      skipLayout tokens := by
    rw [trimLayout, ← List.reverse_append]
    exact (congrArg List.reverse List.takeWhile_append_dropWhile).trans (List.reverse_reverse _)
  rw [htrim, skipLayout, List.takeWhile_append_dropWhile]

theorem openAfter_trimLayout (depth : Nat) (tokens : List Token) :
    openAfter depth (trimLayout tokens) = openAfter depth tokens := by
  obtain ⟨lead, trail, hlead, htrail, htokens⟩ := exists_around tokens
  conv_rhs => rw [htokens]
  rw [openAfter_append, openAfter_of_isLayout hlead, Option.bind_some, openAfter_append]
  cases openAfter depth (trimLayout tokens) with
  | none => rfl
  | some n => exact (openAfter_of_isLayout htrail).symm

theorem significant_of_isLayout (h : ∀ t ∈ tokens, t.isLayout = true) : significant tokens = [] :=
  List.filter_eq_nil_iff.mpr fun t ht => by simp [h t ht]

theorem significant_append (before after : List Token) :
    significant (before ++ after) = significant before ++ significant after := List.filter_append ..

theorem significant_cons (t : Token) (tokens : List Token) :
    significant (t :: tokens) = significant [t] ++ significant tokens := significant_append [t] tokens

theorem significant_trimLayout (tokens : List Token) :
    significant (trimLayout tokens) = significant tokens := by
  obtain ⟨lead, trail, hlead, htrail, htokens⟩ := exists_around tokens
  conv_rhs => rw [htokens]
  rw [significant_append, significant_append, significant_of_isLayout hlead,
    significant_of_isLayout htrail, List.nil_append, List.append_nil]

theorem last_trimLayout : ∀ t ∈ (trimLayout tokens).getLast?, t.isLayout = false := by
  intro t ht
  rw [trimLayout, List.getLast?_reverse] at ht
  exact head?_dropWhile_eq_false ht

theorem significant_withoutNewline (tokens : List Token) :
    significant (tokens.map .withoutNewline) = significant tokens := by
  induction tokens with
  | nil => rfl
  | cons t ts ih =>
    have ht : (t.withoutNewline.isLayout = true ∧ t.isLayout = true) ∨ t.withoutNewline = t := by
      unfold Token.withoutNewline
      split
      · rename_i hkind
        exact .inl ⟨rfl, by rw [Token.isLayout, hkind]; rfl⟩
      · exact .inr rfl
    rw [List.map_cons, significant_cons, ih, significant_cons t ts]
    rcases ht with ⟨hblank, hlayout⟩ | hsame
    · rw [significant_of_isLayout (List.forall_mem_singleton.mpr hblank),
        significant_of_isLayout (List.forall_mem_singleton.mpr hlayout)]
    · rw [hsame]

/-! ## Commas -/

theorem HasComma.of_trimLayout (h : HasComma (trimLayout tokens)) : HasComma tokens := by
  obtain ⟨before, comma, after, htrim, hcomma, hbefore⟩ := h
  obtain ⟨lead, trail, hlead, -, htokens⟩ := exists_around tokens
  refine ⟨lead ++ before, comma, after ++ trail, ?_, hcomma, balanced_iff.mpr ?_⟩
  · rw [htokens, htrim, List.append_assoc, List.append_assoc, List.cons_append]
  · rw [openAfter_append, openAfter_of_isLayout hlead, Option.bind_some, hbefore.openAfter_eq]

theorem not_hasComma_nil : ¬ HasComma [] := by
  rintro ⟨before, comma, after, hnil, -⟩
  exact List.append_ne_nil_of_right_ne_nil before (List.cons_ne_nil comma after) hnil.symm

/-- A comma comes in as the last token, or it was there before. -/
theorem hasComma_append_singleton (h : HasComma (tokens ++ [t])) :
    HasComma tokens ∨ t.isPunctuator "," = true ∧ openAfter 0 tokens = some 0 := by
  obtain ⟨before, comma, after, htokens, hcomma, hbefore⟩ := h
  rcases List.eq_nil_or_concat after with rfl | ⟨after, last, rfl⟩
  · obtain ⟨rfl, hlast⟩ := List.append_inj' htokens rfl
    obtain rfl := (List.cons.inj hlast).1
    exact .inr ⟨hcomma, balanced_iff.mp hbefore⟩
  · rw [List.concat_eq_append, ← List.cons_append, ← List.append_assoc] at htokens
    exact .inl ⟨before, comma, after, (List.append_inj' htokens rfl).1, hcomma, hbefore⟩

/-- Arguments with commas between them. -/
def separated : List (List Token) → List Token → List Token
  | [], _ => []
  | a :: _, [] => a
  | a :: arguments, comma :: commas => a ++ comma :: separated arguments commas

section
variable {done : List (List Token)} {current commas : List Token}

theorem separated_append (h : commas.length = done.length) (current : List Token) :
    separated (done ++ [current]) commas = separated (done ++ [[]]) commas ++ current := by
  induction done generalizing commas with
  | nil =>
    obtain rfl := List.length_eq_zero_iff.mp h
    rfl
  | cons a done ih =>
    cases commas with
    | nil => cases h
    | cons comma commas =>
      rw [List.cons_append, List.cons_append, separated, separated, ih (Nat.succ.inj h),
        List.append_assoc, List.cons_append]

theorem separated_comma (h : commas.length = done.length) (comma : Token) :
    separated (done ++ [current] ++ [[]]) (commas ++ [comma]) =
      separated (done ++ [current]) commas ++ [comma] := by
  induction done generalizing commas with
  | nil =>
    obtain rfl := List.length_eq_zero_iff.mp h
    rfl
  | cons a done ih =>
    cases commas with
    | nil => cases h
    | cons comma commas =>
      rw [List.cons_append, List.cons_append, List.cons_append, separated, separated,
        ih (Nat.succ.inj h), List.append_assoc, List.cons_append]

theorem significant_separated (arguments : List (List Token)) (commas : List Token) :
    significant (separated (arguments.map trimLayout) commas) =
      significant (separated arguments commas) := by
  induction arguments generalizing commas with
  | nil => rfl
  | cons a arguments ih =>
    cases commas with
    | nil => exact significant_trimLayout a
    | cons comma commas =>
      rw [List.map_cons, separated, separated, significant_append, significant_append,
        significant_cons comma (separated _ _), ih, significant_trimLayout, ← significant_cons]

end

/-! ## Reading an argument list -/

theorem withoutNewline_of_isPunctuator {text : String} (h : t.isPunctuator text = true) :
    t.withoutNewline = t := by
  refine if_neg fun hkind => ?_
  rw [(Token.isPunctuator_iff.mp h).1] at hkind
  cases hkind

theorem isPunctuator_withoutNewline (t : Token) (text : String) :
    t.withoutNewline.isPunctuator text = t.isPunctuator text := by
  unfold Token.withoutNewline
  split
  · rename_i hkind
    rw [Token.isPunctuator, Token.isPunctuator, hkind]
    rfl
  · rfl

namespace ArgumentList

variable {named : Nat} {variadic : Bool} {consumed current pending taken : List Token}
  {done : List (List Token)} {list : ArgumentList}

/-- What holds when the tokens `consumed` of an argument list have been read. -/
structure Reading (named : Nat) (variadic : Bool) (consumed : List Token) (depth : Nat)
    (done : List (List Token)) (current : List Token) : Prop where
  finished : ∀ a ∈ done, openAfter 0 a = some 0 ∧ ¬ HasComma a
  depth : openAfter 0 current = some depth
  collects : HasComma current → variadic = true ∧ named ≤ done.length + 1
  count : variadic = true → done.length + 1 ≤ max 1 named
  commas : ∃ commas : List Token, commas.length = done.length ∧
    (∀ t ∈ commas, t.isPunctuator "," = true) ∧
      separated (done ++ [current]) commas = consumed.map .withoutNewline

theorem Reading.start (named : Nat) (variadic : Bool) : Reading named variadic [] 0 [] [] where
  finished _ ha := absurd ha List.not_mem_nil
  depth := rfl
  collects h := absurd h not_hasComma_nil
  count _ := Nat.le_max_left 1 named
  commas := ⟨[], rfl, fun _ ht => absurd ht List.not_mem_nil, rfl⟩

/-- A token that goes to the argument that is read. -/
theorem Reading.take (h : Reading named variadic consumed depth done current)
    (hdepth : openAfter depth [t] = some n)
    (hcomma : t.isPunctuator "," = true → depth = 0 → variadic = true ∧ named ≤ done.length + 1) :
    Reading named variadic (consumed ++ [t]) n done (current ++ [t.withoutNewline]) where
  finished := h.finished
  depth := by
    rw [openAfter_append, h.depth, Option.bind_some, openAfter, isPunctuator_withoutNewline,
      isPunctuator_withoutNewline]
    exact hdepth
  collects hmore := by
    rcases hasComma_append_singleton hmore with hbefore | ⟨hlast, hopen⟩
    · exact h.collects hbefore
    · rw [h.depth] at hopen
      exact hcomma ((isPunctuator_withoutNewline t ",").symm.trans hlast) (Option.some.inj hopen)
  count := h.count
  commas := by
    obtain ⟨commas, hlength, hmarks, hspelled⟩ := h.commas
    refine ⟨commas, hlength, hmarks, ?_⟩
    rw [separated_append hlength, ← List.append_assoc, ← separated_append hlength, hspelled,
      List.map_append, List.map_singleton]

/-- A comma that ends the argument that is read. -/
theorem Reading.split (h : Reading named variadic consumed 0 done current)
    (hcomma : t.isPunctuator "," = true) (hmore : ¬ (variadic = true ∧ named ≤ done.length + 1)) :
    Reading named variadic (consumed ++ [t]) 0 (done ++ [current]) [] where
  finished a ha := by
    rcases List.mem_append.mp ha with ha | ha
    · exact h.finished a ha
    · rw [List.mem_singleton.mp ha]
      exact ⟨h.depth, mt h.collects hmore⟩
  depth := rfl
  collects hnone := absurd hnone not_hasComma_nil
  count hvariadic := by
    have hless : ¬ named ≤ done.length + 1 := fun hle => hmore ⟨hvariadic, hle⟩
    rw [List.length_append, List.length_singleton]
    omega
  commas := by
    obtain ⟨commas, hlength, hmarks, hspelled⟩ := h.commas
    refine ⟨commas ++ [t], by simp [hlength], ?_, ?_⟩
    · exact List.forall_mem_append.mpr ⟨hmarks, List.forall_mem_singleton.mpr hcomma⟩
    · rw [separated_comma hlength, hspelled, List.map_append, List.map_singleton,
        withoutNewline_of_isPunctuator hcomma]

theorem openAfter_singleton_of_comma (h : t.isPunctuator "," = true) (depth : Nat) :
    openAfter depth [t] = some depth := by
  have hother : ∀ text, text ≠ "," → t.isPunctuator text = false := fun text htext =>
    Bool.eq_false_iff.mpr fun hboth => htext (Token.text_eq_of_isPunctuator hboth h)
  rw [openAfter, hother "(" (by decide), hother ")" (by decide), if_neg Bool.false_ne_true,
    if_neg Bool.false_ne_true, openAfter]

/-- A token ends the list, ends an argument, or goes to the argument that is read. -/
theorem read_cons_cases (named : Nat) (variadic : Bool) (depth : Nat) (done : List (List Token))
    (current : List Token) (t : Token) (ts : List Token) :
    (t.isPunctuator ")" = true ∧ depth = 0 ∧ read named variadic depth done current (t :: ts) =
      some ⟨(done ++ [current]).map trimLayout, t, ts⟩) ∨
    (t.isPunctuator "," = true ∧ depth = 0 ∧ ¬ (variadic = true ∧ named ≤ done.length + 1) ∧
      read named variadic depth done current (t :: ts) =
        read named variadic 0 (done ++ [current]) [] ts) ∨
    ∃ n, openAfter depth [t] = some n ∧
      (t.isPunctuator "," = true → depth = 0 → variadic = true ∧ named ≤ done.length + 1) ∧
        read named variadic depth done current (t :: ts) =
          read named variadic n done (current ++ [t.withoutNewline]) ts := by
  rw [read]
  split
  · rename_i hopen
    refine .inr (.inr ⟨depth + 1, by rw [openAfter, if_pos hopen, openAfter], fun hcomma => ?_, ?_⟩)
    · exact absurd (Token.text_eq_of_isPunctuator hopen hcomma) (by decide)
    · rw [withoutNewline_of_isPunctuator hopen]
  rename_i hopen
  split
  · rename_i hclose
    split
    · rename_i hdepth
      exact .inl ⟨hclose, hdepth, rfl⟩
    · rename_i hdepth
      have hless : openAfter depth [t] = some (depth - 1) := by
        rw [openAfter, if_neg hopen, if_pos hclose, if_neg hdepth, openAfter]
      refine .inr (.inr ⟨depth - 1, hless, fun hcomma => ?_, ?_⟩)
      · exact absurd (Token.text_eq_of_isPunctuator hclose hcomma) (by decide)
      · rw [withoutNewline_of_isPunctuator hclose]
  rename_i hclose
  split
  · rename_i hcomma
    simp only [Bool.and_eq_true, Bool.not_eq_true', decide_eq_true_eq, ← Bool.not_eq_true] at hcomma
    obtain ⟨⟨hmark, rfl⟩, hmore⟩ := hcomma
    exact .inr (.inl ⟨hmark, rfl, hmore, rfl⟩)
  · rename_i hcomma
    simp only [Bool.and_eq_true, Bool.not_eq_true', decide_eq_true_eq, ← Bool.not_eq_true] at hcomma
    refine .inr (.inr ⟨depth, by rw [openAfter, if_neg hopen, if_neg hclose, openAfter], ?_, rfl⟩)
    exact fun hmark hdepth => Classical.not_not.mp fun hmore => hcomma ⟨⟨hmark, hdepth⟩, hmore⟩

/-- What holds along an argument list holds at its end. -/
theorem Reading.exists_of_read (hreading : Reading named variadic consumed depth done current)
    (h : read named variadic depth done current pending = some list) :
    ∃ taken done' current', pending = taken ++ list.closing :: list.rest ∧
      list.closing.isPunctuator ")" = true ∧ openAfter depth taken = some 0 ∧
      list.arguments = (done' ++ [current']).map trimLayout ∧
      Reading named variadic (consumed ++ taken) 0 done' current' := by
  induction pending generalizing depth done current consumed with
  | nil => cases h
  | cons t ts ih =>
    obtain ⟨hclose, rfl, hread⟩ | ⟨hcomma, rfl, hmore, hread⟩ | ⟨n, hdepth, hcomma, hread⟩ :=
      read_cons_cases named variadic depth done current t ts
    · rw [hread] at h
      cases h
      exact ⟨[], done, current, rfl, hclose, rfl, rfl, by rwa [List.append_nil]⟩
    · obtain ⟨taken, done', current', rfl, hclosing, htaken, harguments, hend⟩ :=
        ih (hreading.split hcomma hmore) (hread ▸ h)
      refine ⟨t :: taken, done', current', rfl, hclosing, ?_, harguments, ?_⟩
      · rw [← List.singleton_append, openAfter_append, openAfter_singleton_of_comma hcomma]
        exact htaken
      · rwa [List.append_assoc] at hend
    · obtain ⟨taken, done', current', rfl, hclosing, htaken, harguments, hend⟩ :=
        ih (hreading.take hdepth hcomma) (hread ▸ h)
      refine ⟨t :: taken, done', current', rfl, hclosing, ?_, harguments, ?_⟩
      · rw [← List.singleton_append, openAfter_append, hdepth]
        exact htaken
      · rwa [List.append_assoc] at hend

/-- An argument list is read to the `)` that closes it. -/
theorem exists_read (hclosing : closing.isPunctuator ")" = true) (h : openAfter depth taken = some 0)
    (named : Nat) (variadic : Bool) (done : List (List Token)) (current after : List Token) :
    ∃ arguments, read named variadic depth done current (taken ++ closing :: after) =
      some ⟨arguments, closing, after⟩ := by
  induction taken generalizing depth done current with
  | nil =>
    obtain rfl : depth = 0 := Option.some.inj h
    have hopen : ¬ closing.isPunctuator "(" = true := fun hboth =>
      absurd (Token.text_eq_of_isPunctuator hboth hclosing) (by decide)
    exact ⟨(done ++ [current]).map trimLayout, by
      rw [List.nil_append, read, if_neg hopen, if_pos hclosing, if_pos rfl]⟩
  | cons t ts ih =>
    rw [← List.singleton_append, openAfter_append] at h
    obtain ⟨hclose, rfl, -⟩ | ⟨hcomma, rfl, -, hread⟩ | ⟨n, hdepth, -, hread⟩ :=
      read_cons_cases named variadic depth done current t (ts ++ closing :: after)
    · have hopen : ¬ t.isPunctuator "(" = true := fun hboth =>
        absurd (Token.text_eq_of_isPunctuator hboth hclose) (by decide)
      rw [openAfter, if_neg hopen, if_pos hclose, if_pos rfl] at h
      cases h
    · rw [openAfter_singleton_of_comma hcomma, Option.bind_some] at h
      rw [List.cons_append, hread]
      exact ih h _ _
    · rw [hdepth, Option.bind_some] at h
      rw [List.cons_append, hread]
      exact ih h _ _

/-- What the arguments of `d` are that the tokens `taken` between two parentheses are split into. Only
the last of them, which then collects, has a comma of its own. -/
structure Collects (d : Definition) (taken : List Token) (arguments : List (List Token)) : Prop where
  balanced : ∀ a ∈ arguments, Balanced a
  comma : ∀ index a, arguments[index]? = some a → HasComma a →
    d.isVariadic = true ∧ index + 1 = arguments.length ∧ arguments.length = max 1 d.parameters.length
  first : ∀ a ∈ arguments, ∀ t ∈ a.head?, t.isLayout = false
  last : ∀ a ∈ arguments, ∀ t ∈ a.getLast?, t.isLayout = false
  commas : ∃ commas : List Token, commas.length + 1 = arguments.length ∧
    (∀ t ∈ commas, t.isPunctuator "," = true) ∧
      significant (separated arguments commas) = significant taken

theorem Reading.collects_end {d : Definition}
    (h : Reading d.parameters.length d.isVariadic taken 0 done current) :
    Collects d taken ((done ++ [current]).map trimLayout) where
  balanced a ha := by
    obtain ⟨b, hb, rfl⟩ := List.mem_map.mp ha
    rw [balanced_iff, openAfter_trimLayout]
    rcases List.mem_append.mp hb with hb | hb
    · exact (h.finished b hb).1
    · rw [List.mem_singleton.mp hb]
      exact h.depth
  comma index a ha hcomma := by
    rw [List.getElem?_map, Option.map_eq_some_iff] at ha
    obtain ⟨b, hb, rfl⟩ := ha
    have hown := hcomma.of_trimLayout
    rw [List.length_map, List.length_append, List.length_singleton]
    rcases Nat.lt_or_ge index done.length with hindex | hindex
    · rw [List.getElem?_append_left hindex] at hb
      exact absurd hown (h.finished b (List.mem_of_getElem? hb)).2
    · rw [List.getElem?_append_right hindex, List.getElem?_singleton] at hb
      split at hb
      · cases hb
        obtain ⟨hvariadic, hnamed⟩ := h.collects hown
        have hcount := h.count hvariadic
        exact ⟨hvariadic, by omega, by omega⟩
      · cases hb
  first a ha := by
    obtain ⟨b, -, rfl⟩ := List.mem_map.mp ha
    exact head_trimLayout
  last a ha := by
    obtain ⟨b, -, rfl⟩ := List.mem_map.mp ha
    exact last_trimLayout
  commas := by
    obtain ⟨commas, hlength, hmarks, hspelled⟩ := h.commas
    refine ⟨commas, by simp [hlength], hmarks, ?_⟩
    rw [significant_separated, hspelled, significant_withoutNewline]

theorem supply_ne_unterminated (d : Definition) (arguments : List (List Token)) :
    supply d arguments ≠ .error .unterminatedInvocation := by
  unfold supply
  dsimp only
  intro h
  split at h
  · cases h
  split at h
  · cases h
  split at h
  · cases h
  · cases h

end ArgumentList

/-- The arguments after a `(` reach to the first `)` that closes it, and there is an error where there
is none. They lose nothing but layout, as with commas between them they are the significant tokens in
front of this `)`. -/
theorem Expander.call_collects (d : Definition) (t : Token) {opening : Token}
    (hopening : opening.isPunctuator "(" = true) (pending : List Token) :
    (call d t (opening :: pending) = .error ⟨d.name, .unterminatedInvocation, t.location⟩ ↔
      ¬ ∃ taken closing after, pending = taken ++ closing :: after ∧ Closes taken closing) ∧
    ∀ taken closing after, pending = taken ++ closing :: after → Closes taken closing →
      ∃ arguments, ArgumentList.read d.parameters.length d.isVariadic 0 [] [] pending =
        some ⟨arguments, closing, after⟩ ∧ ArgumentList.Collects d taken arguments := by
  have hstart := ArgumentList.Reading.start d.parameters.length d.isVariadic
  have hskip : skipLayout (opening :: pending) = opening :: pending :=
    List.dropWhile_cons_of_neg fun hlayout => by
      rw [not_isPunctuator_of_isLayout hlayout] at hopening
      cases hopening
  refine ⟨⟨?_, fun hnone => ?_⟩, ?_⟩
  · rintro hcall ⟨taken, closing, after, rfl, hclosing, htaken⟩
    obtain ⟨arguments, hread⟩ := ArgumentList.exists_read hclosing (htaken.openAfter_eq 0)
      d.parameters.length d.isVariadic [] [] after
    rw [call, hskip, List.tail_cons, hread] at hcall
    dsimp only at hcall
    cases hsupply : ArgumentList.supply d arguments with
    | error fault =>
      rw [hsupply] at hcall
      cases hcall
      exact ArgumentList.supply_ne_unterminated d arguments hsupply
    | ok supplied =>
      rw [hsupply] at hcall
      cases hcall
  · rw [call, hskip, List.tail_cons]
    cases hread : ArgumentList.read d.parameters.length d.isVariadic 0 [] [] pending with
    | none => rfl
    | some list =>
      obtain ⟨taken, done, current, hpending, hclosing, htaken, -, -⟩ := hstart.exists_of_read hread
      exact absurd ⟨taken, list.closing, list.rest, hpending, hclosing, balanced_iff.mpr htaken⟩ hnone
  · rintro taken closing after rfl ⟨hclosing, htaken⟩
    obtain ⟨arguments, hread⟩ := ArgumentList.exists_read hclosing (htaken.openAfter_eq 0)
      d.parameters.length d.isVariadic [] [] after
    obtain ⟨taken', done, current, hpending, -, -, harguments, hend⟩ := hstart.exists_of_read hread
    obtain rfl := List.append_cancel_right hpending
    obtain rfl : arguments = (done ++ [current]).map trimLayout := harguments
    exact ⟨_, hread, hend.collects_end⟩

/-! ## Commas that stay in an argument -/

/-- The macro that `#define pick(a, b...)` defines. -/
def pickDefinition : Definition := { name := "pick", shape := .function ["a", "b"] true }

/-- The tokens of `(y,z),w`. -/
def pickRest : List Token :=
  [markAt "(" 8, wordAt "y" 9, markAt "," 10, wordAt "z" 11, markAt ")" 12, markAt "," 13, wordAt "w" 14]

/-- The tokens of `x,(y,z),w` and a line end. -/
def pickTaken : List Token :=
  wordAt "x" 6 :: markAt "," 7 ::
    (pickRest ++ [{ kind := .newline, text := "\n", location := ⟨"<input>", 1, 15⟩ }])

/-- The second argument has its commas, and the line end is not part of it. -/
theorem Expander.call_collects_pick :
    (markAt "(" 5).isPunctuator "(" = true ∧ Closes pickTaken (markAt ")" 16) ∧
    ArgumentList.read 2 true 0 [] [] (pickTaken ++ [markAt ")" 16, wordAt "v" 17]) =
      some ⟨[[wordAt "x" 6], pickRest], markAt ")" 16, [wordAt "v" 17]⟩ ∧
    ArgumentList.Collects pickDefinition pickTaken [[wordAt "x" 6], pickRest] := by
  have hopening : (markAt "(" 5).isPunctuator "(" = true := by decide
  have hcloses : Closes pickTaken (markAt ")" 16) := ⟨by decide, balanced_iff.mpr (by decide)⟩
  have hread : ArgumentList.read 2 true 0 [] [] (pickTaken ++ [markAt ")" 16, wordAt "v" 17]) =
      some ⟨[[wordAt "x" 6], pickRest], markAt ")" 16, [wordAt "v" 17]⟩ := by cbv
  obtain ⟨-, hcollects⟩ := Expander.call_collects pickDefinition (wordAt "pick" 1) hopening
    (pickTaken ++ [markAt ")" 16, wordAt "v" 17])
  obtain ⟨arguments, hsame, harguments⟩ := hcollects _ _ _ rfl hcloses
  obtain rfl : [[wordAt "x" 6], pickRest] = arguments :=
    congrArg ArgumentList.arguments (Option.some.inj (hread.symm.trans hsame))
  exact ⟨hopening, hcloses, hread, harguments⟩

end CPreprocessor
