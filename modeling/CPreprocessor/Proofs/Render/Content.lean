import CPreprocessor.Proofs.Render.Separation

/-!
# What printed tokens say

Printed tokens are read back as themselves exactly if each of them reads as itself alone, and no word
is printed right before a literal with an encoding (`content_renderPrinted_iff`).
-/

namespace CPreprocessor

open Lexeme Token

variable {t : Token} {ts : List Token} {w : List Char}

/-- Whether every token reads as itself alone, and no word stands before a literal with an encoding. -/
structure Legible (ts : List Token) : Prop where
  alone : ∀ t ∈ ts, t.isLayout = false → t.Alone
  apart : ts.IsChain fun l r => ¬ l.Glues r

theorem Legible.nil : Legible [] := ⟨nofun, .nil⟩

theorem legible_cons : Legible (t :: ts) ↔
    (t.isLayout = false → t.Alone) ∧ (∀ r ∈ ts.head?, ¬ t.Glues r) ∧ Legible ts := by
  constructor
  · rintro ⟨halone, hapart⟩
    obtain ⟨ht, hts⟩ := List.forall_mem_cons.mp halone
    obtain ⟨hglue, hapart⟩ := List.isChain_cons.mp hapart
    exact ⟨ht, hglue, hts, hapart⟩
  · rintro ⟨ht, hglue, hts, hapart⟩
    exact ⟨List.forall_mem_cons.mpr ⟨ht, hts⟩, List.isChain_cons.mpr ⟨hglue, hapart⟩⟩

theorem Legible.of_forall (halone : ∀ t ∈ ts, t.isLayout = false → t.Alone)
    (hglue : ∀ r ∈ ts, ∀ l, ¬ Token.Glues l r) : Legible ts := by
  induction ts with
  | nil => exact .nil
  | cons t ts ih =>
    obtain ⟨ht, halone⟩ := List.forall_mem_cons.mp halone
    obtain ⟨-, hglue⟩ := List.forall_mem_cons.mp hglue
    exact legible_cons.mpr ⟨ht, fun r hr => hglue r (List.mem_of_mem_head? hr) t, ih halone hglue⟩

/-- The first token of a text, and what the rest says. -/
theorem content_eq_cons {c : Char} {us : List Char} {form : Kind × String}
    {said : List (Kind × String)} (hplain : NoLayout c us) (h : content (c :: us) = some (form :: said)) :
    ∃ n, first c us = .ok (form.1, n) ∧ n ≤ us.length ∧ form.2 = String.ofList (c :: us.take n) ∧
      content (us.drop n) = some said := by
  cases hfirst : first c us with
  | error cause =>
    rw [content_fault hfirst] at h
    cases h
  | ok kn =>
    obtain ⟨kind, n⟩ := kn
    have hkind := hplain.kind_of_first hfirst
    rw [content_cons hfirst, hkind] at h
    obtain ⟨rest, hrest, heq⟩ := Option.map_eq_some_iff.mp h
    cases heq
    exact ⟨n, rfl, first_le hfirst hkind, rfl, hrest⟩

namespace Token

/-- A token that reads as itself alone is read before text that does not go on with it. -/
theorem Alone.content_append (h : t.Alone) (hlayout : t.isLayout = false)
    (hstops : Stops t.kind t.text.toList w) :
    content (t.text.toList ++ w) = (content w).map (t.form :: ·) := by
  obtain ⟨c, cs, hu, hfirst⟩ := h.first_eq hlayout
  rw [hu] at hstops
  have hkind : t.kind.isLayout = false := hlayout
  rw [hu, List.cons_append, content_cons (first_append_of_stops hfirst hlayout hstops), hkind,
    List.take_left, List.drop_left, ← hu, String.ofList_toList]
  rfl

theorem IsSpace.isLayout (h : t.IsSpace) : t.isLayout = true := by
  rcases h with ⟨hkind, -⟩ | ⟨hkind, -⟩
  · rw [Token.isLayout, hkind]
    rfl
  · rw [Token.isLayout, hkind]
    rfl

theorem IsSpace.content_append (h : t.IsSpace) (w : List Char) :
    content (t.text.toList ++ w) = content w := by
  refine content_layout (fun c hc => ?_) w
  rcases h with ⟨-, htext⟩ | ⟨-, -, hblank⟩
  · rw [htext] at hc
    exact .inr (List.mem_singleton.mp hc)
  · exact .inl (hblank c hc)

end Token

/-- A blank that separates two tokens says nothing. -/
theorem content_renderAfter_cons (l r : Token) (rest : List Token) :
    content (renderAfter l (r :: rest)) = content (renderPrinted (r :: rest)) := by
  rw [renderAfter, renderPrinted]
  split
  · exact content_blank (by decide) _
  · rfl

/-- A word before a literal with an encoding is read as a longer word. -/
theorem content_ne_of_glues {r : Token} (halone : t.Alone) (hglue : t.Glues r)
    (said : List (Kind × String)) :
    content (t.text.toList ++ (r.text.toList ++ w)) ≠ some (t.form :: said) := by
  intro h
  obtain ⟨hword, -, ⟨d, hd, hname⟩, -⟩ := hglue
  have hlayout : t.isLayout = false := by
    rcases hword with hkind | hkind <;> rw [isLayout, hkind] <;> rfl
  obtain ⟨c, cs, hu, hfirst⟩ := halone.first_eq hlayout
  have hstarts : Starts c cs t.kind := by
    simpa only [List.take_length] using starts_of_first hfirst hlayout
  have hclass : isNameStart c = true ∨ Text.isDigit c = true ∨ IsQuote c ∨ c = '.' := by
    rcases hword with hkind | hkind
    · rw [hkind] at hstarts
      exact .inl hstarts
    · rw [hkind] at hstarts
      exact .inr (hstarts.imp_right fun hpoint => .inr hpoint.1)
  obtain ⟨ds, hr⟩ := List.head?_eq_some_iff.mp hd
  rw [hu, hr, List.cons_append] at h
  obtain ⟨n, hread, hle, htext, -⟩ := content_eq_cons (noLayout_of_class hclass) h
  have hcs : c :: cs = c :: (cs ++ (d :: ds ++ w)).take n := by
    rw [← hu]
    exact (congrArg String.toList htext).trans String.toList_ofList
  have hn := congrArg List.length (List.cons.inj hcs).2
  rw [List.length_take_of_le hle] at hn
  subst hn
  have hstop := first_word_stop hread hword d (by rw [List.drop_left]; rfl)
  rw [isNameChar, hname] at hstop
  cases hstop

/-- A string literal that is read is one. -/
theorem alone_of_content_string (hkind : t.kind = .string) (hbegins : BeginsString t.text.toList)
    {said : List (Kind × String)} (h : content (t.text.toList ++ w) = some (t.form :: said)) :
    t.Alone := by
  obtain ⟨c, cs, hu, hstarts⟩ := (Spelled.string hkind hbegins).starts
  rw [hkind] at hstarts
  have hclass : isNameStart c = true ∨ Text.isDigit c = true ∨ IsQuote c ∨ c = '.' :=
    hstarts.elim (fun hquote => .inr (.inr (.inl hquote))) .inl
  rw [hu, List.cons_append] at h
  obtain ⟨n, hread, hle, htext, -⟩ := content_eq_cons (noLayout_of_class hclass) h
  have hcs : cs = (cs ++ w).take n := by
    have hlist := (congrArg String.toList htext).trans String.toList_ofList
    exact (List.cons.inj (hu.symm.trans hlist)).2
  have hn := congrArg List.length hcs
  rw [List.length_take_of_le hle] at hn
  have hfirst := first_take hread fun hnumber => by
    have := hnumber.symm.trans hkind
    cases this
  rw [← hcs, ← hn] at hfirst
  exact alone_of_first hu hfirst

/-- A point without digits is no number before what may be printed after it. -/
theorem content_ne_of_point (hkind : t.kind = .number) (htext : t.text = ".")
    (hts : ∀ t ∈ ts, t.Spelled) (said : List (Kind × String)) :
    content (t.text.toList ++ renderAfter t ts) ≠ some (t.form :: said) := by
  intro h
  have hu : t.text.toList = ['.'] := by
    rw [htext]
    rfl
  rw [hu, List.singleton_append] at h
  obtain ⟨n, hread, -, -, -⟩ := content_eq_cons (noLayout_of_class (.inr (.inr (.inr rfl)))) h
  have hform : t.form.1 = .number := hkind
  rw [hform] at hread
  obtain ⟨hstarts, -⟩ := startsNumber_of_first hread
  have hdigit : ∃ d ∈ (renderAfter t ts).head?, Text.isDigit d = true := by
    have hpoint : Text.isDigit '.' = false := by decide
    rw [startsNumber, hpoint, Bool.false_or] at hstarts
    rw [decide_eq_true rfl, Bool.true_and, Option.any_eq_true] at hstarts
    exact hstarts
  obtain ⟨d, hd, hdigit⟩ := hdigit
  obtain rfl | ⟨r, rest, ds, -, -, -, hr, -, hnumber⟩ := not_word_of_head hu (.inr hkind) hts hd
  · exact absurd hdigit (by decide)
  · rw [hr.isDigit hnumber] at hdigit
    cases hdigit

theorem not_alone_of_point (hkind : t.kind = .number) (htext : t.text = ".") : ¬ t.Alone := by
  intro halone
  obtain ⟨c, cs, hu, hfirst⟩ := halone.first_eq (by rw [isLayout, hkind]; rfl)
  rw [htext] at hu
  cases hu
  rw [hkind] at hfirst
  exact absurd hfirst (by decide)

/-- A token that reads as itself alone is read back unless it is a word that goes on. -/
theorem content_alone_iff (halone : t.Alone) (hlayout : t.isLayout = false)
    (hts : ∀ t ∈ ts, t.Spelled) :
    content (t.text.toList ++ renderAfter t ts) = some (t.form :: forms ts) ↔
      (∀ r ∈ ts.head?, ¬ t.Glues r) ∧ content (renderAfter t ts) = some (forms ts) := by
  by_cases hglue : ∀ r ∈ ts.head?, ¬ t.Glues r
  · rw [halone.content_append hlayout (stops_renderAfter (.alone halone hlayout) hts hglue)]
    rw [and_iff_right hglue]
    cases content (renderAfter t ts) with
    | none => simp
    | some said => simp
  · refine iff_of_false (fun h => hglue fun r hr hglues => ?_) fun h => hglue h.1
    cases ts with
    | nil => cases hr
    | cons r rest =>
      cases hr
      rw [renderAfter, hglues.2.2.2, if_neg (by decide)] at h
      exact content_ne_of_glues halone hglues _ h

/-- Printed tokens are read back as themselves exactly if they are legible. -/
theorem content_renderPrinted_iff (hts : ∀ t ∈ ts, t.Spelled) :
    content (renderPrinted ts) = some (forms ts) ↔ Legible ts := by
  induction ts with
  | nil =>
    rw [renderPrinted, content_nil]
    exact ⟨fun _ => .nil, fun _ => rfl⟩
  | cons t ts ih =>
    obtain ⟨ht, hts⟩ := List.forall_mem_cons.mp hts
    have hafter : content (renderAfter t ts) = some (forms ts) ↔ Legible ts := by
      rw [← ih hts]
      cases ts with
      | nil => rfl
      | cons r rest => rw [content_renderAfter_cons]
    have hread : t.isLayout = false → t.Alone →
        (content (t.text.toList ++ renderAfter t ts) =
            some (if t.isLayout then forms ts else t.form :: forms ts) ↔
          (t.isLayout = false → t.Alone) ∧ (∀ r ∈ ts.head?, ¬ t.Glues r) ∧ Legible ts) := by
      intro hlayout halone
      rw [hlayout, if_neg Bool.false_ne_true, content_alone_iff halone hlayout hts, hafter]
      exact (and_iff_right fun _ => halone).symm
    rw [renderPrinted, legible_cons, forms_cons]
    cases ht with
    | space h =>
      have hlayout := h.isLayout
      rw [h.content_append, hlayout, if_pos rfl, hafter]
      refine ⟨fun h => ⟨fun hnot => Bool.noConfusion hnot, fun r _ hglue => ?_, h⟩, fun h => h.2.2⟩
      rw [isLayout] at hlayout
      rcases hglue.1 with hkind | hkind <;> rw [hkind] at hlayout <;> cases hlayout
    | alone halone hlayout => exact hread hlayout halone
    | string hkind hbegins =>
      have hlayout : t.isLayout = false := by
        rw [isLayout, hkind]
        rfl
      by_cases halone : t.Alone
      · exact hread hlayout halone
      · rw [hlayout]
        refine iff_of_false (fun h => ?_) fun h => halone (h.1 rfl)
        exact halone (alone_of_content_string hkind hbegins h)
    | point hkind htext =>
      have hlayout : t.isLayout = false := by
        rw [isLayout, hkind]
        rfl
      rw [hlayout]
      refine iff_of_false (content_ne_of_point hkind htext hts _) fun h => ?_
      exact not_alone_of_point hkind htext (h.1 rfl)

end CPreprocessor
