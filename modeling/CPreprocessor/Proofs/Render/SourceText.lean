import Mathlib
import CPreprocessor.Proofs.Source.SideBySide

/-!
# Printing what was read

A blank that is printed keeps two tokens apart that would not be read side by side. Between two
tokens that were read side by side none is needed, but a number after a word, and a point after a
point, are kept apart wherever they came from (`Token.ApartAnyway`). But for these blanks, what is
printed of the tokens of a source is its text (`Source.render_tokens_eq_iff`).
-/

namespace CPreprocessor

open Lexeme

namespace Token

variable {t l r : Token} {ts : List Token} {a b : Char} {as bs w : List Char}

/-- Whether two tokens are printed with a blank between them although they may be read side by side:
a number after a word or a number, and two points. -/
def ApartAnyway (l r : Token) : Prop :=
  (l.kind = .identifier ∨ l.kind = .number) ∧ r.kind = .number ∨
    l.isPunctuator "." = true ∧ r.isPunctuator "." = true

instance (l r : Token) : Decidable (ApartAnyway l r) :=
  inferInstanceAs (Decidable (_ ∨ _))

/-- After a word that was read only a number is kept apart from it. -/
theorem needsSeparator_word_iff (hl : l.text.toList = a :: as) (hr : r.text.toList = b :: bs)
    (hword : l.kind = .identifier ∨ l.kind = .number) (hstops : Stops l.kind (a :: as) (b :: w))
    (hstarts : r.isLayout = false → Starts b bs r.kind) :
    l.needsSeparator r = true ↔ r.kind = .number := by
  by_cases hnumber : r.kind = .number
  · exact iff_of_true (needsSeparator_words hl hr hword (.inr hnumber)) hnumber
  refine iff_of_false (fun hseparator => ?_) hnumber
  have hname : isNameStart b = false := by
    have hstop : isNameChar b = false := by
      rcases hword with hkind | hkind
      · rw [hkind] at hstops
        exact hstops.1 b rfl
      · rw [hkind] at hstops
        exact (hstops.1 b rfl).1
    exact (Bool.or_eq_false_iff.mp hstop).1
  have hidentifier : r.kind ≠ .identifier := by
    intro hkind
    have hstart := hstarts (by rw [isLayout, hkind]; rfl)
    rw [hkind, Starts, hname] at hstart
    cases hstart
  rcases hword with hkind | hkind
  · rw [hkind] at hstops
    -- a quotation mark after the name of an encoding would have been read with it
    have hliteral : IsQuote b ∨ isNameStart b = true →
        encodingPrefixes.contains (a :: as) = false := by
      refine fun hquote => Bool.eq_false_iff.mpr fun hcontains => ?_
      refine hstops.2 (List.contains_iff_mem.mp hcontains) b rfl (hquote.resolve_right ?_)
      rw [hname]
      exact Bool.false_ne_true
    cases hright : r.kind with
    | identifier => exact hidentifier hright
    | number => exact hnumber hright
    | string =>
      have hstart := hstarts (by rw [isLayout, hright]; rfl)
      rw [hright] at hstart
      simp only [needsSeparator, hl, hr, hkind, hright, hliteral hstart, Bool.false_eq_true]
        at hseparator
    | character =>
      have hstart := hstarts (by rw [isLayout, hright]; rfl)
      rw [hright] at hstart
      simp only [needsSeparator, hl, hr, hkind, hright, hliteral hstart, Bool.false_eq_true]
        at hseparator
    | _ => simp only [needsSeparator, hl, hr, hkind, hright, Bool.false_eq_true] at hseparator
  · rw [hkind] at hstops
    have hpoint : (b == '.') = false := beq_eq_false_iff_ne.mpr (hstops.1 b rfl).2
    have hsign : (isExponentMark ((a :: as).getLastD a) && isSign b) = false := by
      refine Bool.and_eq_false_imp.mpr fun hmark => hstops.2 _ ?_ hmark b rfl
      rw [List.getLastD_eq_getLast?, List.getLast?_cons]
      rfl
    have hjoin : (b == '.' || (isExponentMark ((a :: as).getLastD a) && isSign b)) = false :=
      Bool.or_eq_false_iff.mpr ⟨hpoint, hsign⟩
    cases hright : r.kind with
    | identifier => exact hidentifier hright
    | number => exact hnumber hright
    | _ =>
      simp only [needsSeparator, hl, hr, hkind, hright, hjoin, Bool.and_false, Bool.false_eq_true]
        at hseparator

/-- The beginnings of a punctuator are punctuators, but for two points. -/
theorem mem_or_points : ∀ p ∈ punctuators, ∀ u ∈ p.inits, 2 ≤ u.length →
    u ∈ punctuators ∨ u = ['.', '.'] := by decide

/-- A punctuator that begins with a point is the point or the ellipsis. -/
theorem point_or_ellipsis : ∀ p ∈ punctuators, p.head? = some '.' →
    p = ['.'] ∨ p = ['.', '.', '.'] := by decide

/-- After a punctuator that was read only a second point is kept apart from it. -/
theorem needsSeparator_punctuator_iff (hl : l.text.toList = a :: as) (hr : r.text.toList = b :: bs)
    (hkind : l.kind = .punctuator) (hstops : Stops .punctuator (a :: as) (b :: (bs ++ w)))
    (hstarts : r.isLayout = false → Starts b bs r.kind) :
    l.needsSeparator r = true ↔ l.text = "." ∧ r.isPunctuator "." = true := by
  obtain ⟨hslash, hdigit, hlonger⟩ := hstops
  constructor
  · intro hseparator
    cases hright : r.kind with
    | punctuator =>
      have hstart := hstarts (by rw [isLayout, hright]; rfl)
      rw [hright] at hstart
      simp only [needsSeparator, hl, hr, hkind, hright, Bool.or_eq_true, beq_iff_eq,
        List.any_eq_true, Bool.and_eq_true, decide_eq_true_eq, List.isPrefixOf_iff_prefix]
        at hseparator
      have hcomment : ∀ d, a :: as ++ [b] = ['/', d] → a :: as = ['/'] ∧ b = d := by
        intro d h
        obtain ⟨hleft, hd⟩ := List.append_inj' (show a :: as ++ [b] = ['/'] ++ [d] from h) rfl
        exact ⟨hleft, List.singleton_inj.mp hd⟩
      obtain (hline | hblock) | ⟨p, hp, -, hpre⟩ := hseparator
      · obtain ⟨hleft, hb⟩ := hcomment '/' hline
        exact absurd hb (hslash hleft b rfl).1
      · obtain ⟨hleft, hb⟩ := hcomment '*' hblock
        exact absurd hb (hslash hleft b rfl).2
      have hlength : (a :: as).length < (a :: as ++ [b]).length := by
        rw [List.length_append]
        exact Nat.lt_succ_self _
      obtain hmem | hpoints := mem_or_points p hp _ ((List.mem_inits _ _).mpr hpre)
        (Nat.le_trans (Nat.succ_le_succ (Nat.succ_le_succ (Nat.zero_le as.length)))
          (Nat.succ_le_of_lt hlength))
      · refine absurd ?_ (hlonger _ hmem hlength)
        rw [List.cons_append, List.cons_append, List.cons_prefix_cons]
        exact ⟨rfl, (List.prefix_append_right_inj as).mpr
          (List.cons_prefix_cons.mpr ⟨rfl, List.nil_prefix⟩)⟩
      · obtain ⟨hleft, hb⟩ := List.append_inj' (show a :: as ++ [b] = ['.'] ++ ['.'] from hpoints) rfl
        obtain rfl := List.singleton_inj.mp hb
        refine ⟨String.toList_inj.mp (hl.trans hleft), isPunctuator_iff.mpr ⟨hright, ?_⟩⟩
        obtain hpoint | hellipsis := point_or_ellipsis _ hstart rfl
        · exact String.toList_inj.mp (hr.trans hpoint)
        · -- three points in a row would have been read as one token
          obtain ⟨-, rfl⟩ := List.cons.inj hellipsis
          rw [hleft] at hlonger
          exact absurd ⟨'.' :: w, rfl⟩ (hlonger ['.', '.', '.'] (by decide) (by decide))
    | number =>
      simp only [needsSeparator, hl, hr, hkind, hright, Bool.and_eq_true, beq_iff_eq,
        List.isEmpty_iff] at hseparator
      obtain ⟨⟨rfl, rfl⟩, hb⟩ := hseparator
      rw [hdigit rfl b rfl] at hb
      cases hb
    | _ => simp only [needsSeparator, hl, hr, hkind, hright, Bool.false_eq_true] at hseparator
  · rintro ⟨hleft, hpoint⟩
    obtain ⟨hright, htext⟩ := isPunctuator_iff.mp hpoint
    simp only [needsSeparator, hleft, htext, hkind, hright]
    decide

/-- Of two tokens that were read side by side only those are printed with a blank between them that
are kept apart anyway. -/
theorem needsSeparator_iff (h : SideBySide (l :: r :: ts)) :
    l.needsSeparator r = true ↔ l.ApartAnyway r := by
  obtain ⟨⟨a, as, hl, hfirst⟩, hrest⟩ := sideBySide_cons.mp h
  obtain ⟨⟨b, bs, hr, hnext⟩, -⟩ := sideBySide_cons.mp hrest
  have hstarts : r.isLayout = false → Starts b bs r.kind := fun hlayout => by
    simpa only [List.take_left] using starts_of_first hnext hlayout
  have hstops : l.isLayout = false → Stops l.kind (a :: as) (b :: (bs ++ spell ts)) := by
    intro hlayout
    have hstops := h.stops hlayout
    rwa [hl, spell_cons, hr] at hstops
  cases hkind : l.kind with
  | identifier =>
    rw [needsSeparator_word_iff hl hr (.inl hkind) (hstops (by rw [isLayout, hkind]; rfl)) hstarts]
    simp [ApartAnyway, isPunctuator, hkind]
  | number =>
    rw [needsSeparator_word_iff hl hr (.inr hkind) (hstops (by rw [isLayout, hkind]; rfl)) hstarts]
    simp [ApartAnyway, isPunctuator, hkind]
  | punctuator =>
    have hpunctuator := hstops (by rw [isLayout, hkind]; rfl)
    rw [hkind] at hpunctuator
    rw [needsSeparator_punctuator_iff hl hr hkind hpunctuator hstarts]
    simp [ApartAnyway, isPunctuator, hkind]
  | _ => simp [needsSeparator, ApartAnyway, isPunctuator, hl, hr, hkind]

end Token

/-! ## The printed text -/

variable {ts : List Token}

theorem length_spell_le (previous : Token) (ts : List Token) :
    (spell ts).length ≤ (renderAfter previous ts).length := by
  induction ts generalizing previous with
  | nil => exact Nat.le_refl 0
  | cons t ts ih =>
    rw [spell_cons, renderAfter, List.length_append, List.length_append]
    refine Nat.add_le_add ?_ (ih t)
    split
    · exact Nat.le_succ _
    · exact Nat.le_refl _

/-- The spellings are printed one after the other as long as no blank is put between two of them. -/
theorem renderAfter_eq_spell_iff (previous : Token) (ts : List Token) :
    renderAfter previous ts = spell ts ↔
      (previous :: ts).IsChain fun l r => l.needsSeparator r = false := by
  induction ts generalizing previous with
  | nil => exact iff_of_true rfl (.singleton _)
  | cons t ts ih =>
    rw [spell_cons, renderAfter, List.isChain_cons_cons, ← ih t]
    cases hseparator : previous.needsSeparator t with
    | true =>
      refine iff_of_false (fun heq => ?_) fun h => Bool.noConfusion h.1
      have hlength := congrArg List.length heq
      have hle := length_spell_le t ts
      rw [if_pos rfl, List.length_append, List.length_append, List.length_cons] at hlength
      omega
    | false =>
      rw [if_neg Bool.false_ne_true, List.append_cancel_left_eq]
      exact (and_iff_right rfl).symm

theorem renderPrinted_eq_spell_iff (ts : List Token) :
    renderPrinted ts = spell ts ↔ ts.IsChain fun l r => l.needsSeparator r = false := by
  cases ts with
  | nil => exact iff_of_true rfl .nil
  | cons t ts => rw [renderPrinted, spell_cons, List.append_cancel_left_eq,
      renderAfter_eq_spell_iff]

/-- What was read is printed. -/
theorem SideBySide.isPrinted (h : SideBySide ts) : ∀ t ∈ ts, t.isPrinted = true := by
  induction ts with
  | nil => exact nofun
  | cons t ts ih =>
    obtain ⟨⟨c, cs, hu, hfirst⟩, hts⟩ := sideBySide_cons.mp h
    refine List.forall_mem_cons.mpr ⟨?_, ih hts⟩
    rw [Token.isPrinted, Bool.and_eq_true, decide_eq_true_eq, decide_eq_true_eq]
    refine ⟨fun hkind => ?_, fun hkind => ?_⟩
    · rw [hkind] at hfirst
      exact Token.starts_of_first hfirst rfl
    · rw [hkind] at hfirst
      exact Token.starts_of_first hfirst rfl

/-- The tokens of a source without splices are printed as its text, but for a blank between two
tokens that are kept apart anyway; no other two neighbours are printed with a blank between them. -/
theorem Source.render_tokens_eq_iff {s : Source}
    (hsplices : despliced s.text.toList = s.text.toList) (h : s.tokens = .ok ts) :
    (render ts = s.text ↔ ts.IsChain fun l r => ¬ l.ApartAnyway r) ∧
      ∀ l r before after, ts = before ++ l :: r :: after →
        (l.needsSeparator r = true ↔ l.ApartAnyway r) := by
  obtain ⟨hside, hspell⟩ := s.sideBySide_tokens h
  have hneighbours : ∀ l r before after, ts = before ++ l :: r :: after →
      (l.needsSeparator r = true ↔ l.ApartAnyway r) := by
    rintro l r before after rfl
    exact Token.needsSeparator_iff hside.of_append
  refine ⟨?_, hneighbours⟩
  rw [← String.toList_inj, render, String.toList_ofList, List.filter_eq_self.mpr hside.isPrinted,
    ← hsplices, ← hspell, renderPrinted_eq_spell_iff,
    List.isChain_iff_forall_rel_of_append_cons_cons,
    List.isChain_iff_forall_rel_of_append_cons_cons]
  refine forall₄_congr fun l r before after => forall_congr' fun heq => ?_
  rw [← Bool.not_eq_true, hneighbours l r before after heq]

/-- Points, signs and operators that meet in a source are printed as they stand. -/
theorem Source.render_tokens_points :
    ∃ ts, ({ text := "x=s.y--->..." } : Source).tokens = .ok ts ∧
      render ts = "x=s.y--->..." := by
  let at_ (kind : Kind) (text : String) (column : Nat) : Token :=
    { kind, text, location := ⟨"<input>", 1, column⟩ }
  have htokens : ({ text := "x=s.y--->..." } : Source).tokens = .ok
      [at_ .identifier "x" 1, at_ .punctuator "=" 2, at_ .identifier "s" 3, at_ .punctuator "." 4,
        at_ .identifier "y" 5, at_ .punctuator "--" 6, at_ .punctuator "->" 8,
        at_ .punctuator "..." 10] := by cbv
  exact ⟨_, htokens, (Source.render_tokens_eq_iff (by decide) htokens).1.mpr (by decide)⟩

/-- A number that begins with a point is kept apart from the name right before it. -/
theorem Source.render_tokens_apart :
    despliced "a.5".toList = "a.5".toList ∧
      ∃ ts, ({ text := "a.5" } : Source).tokens = .ok ts ∧ render ts = "a .5" := by
  let at_ (kind : Kind) (text : String) (column : Nat) : Token :=
    { kind, text, location := ⟨"<input>", 1, column⟩ }
  have htokens : ({ text := "a.5" } : Source).tokens = .ok
      [at_ .identifier "a" 1, at_ .number ".5" 2] := by cbv
  exact ⟨by decide, _, htokens, by decide⟩

end CPreprocessor
