import Mathlib
import CPreprocessor.Proofs.Source.LogicalLine

/-!
# The text of a logical line

Where lines are counted alike by newlines and by every line boundary, the listing gives the text of a
line without its splices, up to the first newline in it (`Source.Line.joins_location`).
-/

namespace CPreprocessor

open Lexeme

/-! ## Lines of a listing -/

namespace Text

/-- Whether every line boundary in a text is a newline, or the carriage return right before one. -/
def NewlineEnds : List Char → Prop
  | [] => True
  | c :: cs =>
    (isLineBoundary c = true → c = '\n' ∨ c = '\r' ∧ cs.head? = some '\n') ∧ NewlineEnds cs

instance decidableNewlineEnds : (u : List Char) → Decidable (NewlineEnds u)
  | [] => isTrue trivial
  | _ :: cs => @instDecidableAnd _ _ _ (decidableNewlineEnds cs)

theorem boundaryLinesFrom_nil (line : List Char) :
    boundaryLinesFrom line [] = if line.isEmpty then [] else [line.reverse] := rfl

theorem boundaryLinesFrom_return (line cs : List Char) :
    boundaryLinesFrom line ('\r' :: '\n' :: cs) = line.reverse :: boundaryLinesFrom [] cs := rfl

theorem boundaryLinesFrom_ne_nil {line u : List Char} (h : line ≠ [] ∨ u ≠ []) :
    boundaryLinesFrom line u ≠ [] := by
  fun_induction boundaryLinesFrom line u with
  | case1 line hempty => simp_all
  | case2 => exact List.cons_ne_nil _ _
  | case3 => exact List.cons_ne_nil _ _
  | case4 => exact List.cons_ne_nil _ _
  | case5 line c cs hreturn hboundary ih => exact ih (.inl (List.cons_ne_nil _ _))

end Text

namespace Listing

variable {lines more cont : List (List Char)}

theorem joined_append_of_stop (h : ∃ l ∈ lines, continues l = false) (more : List (List Char)) :
    joined (lines ++ more) = joined lines := by
  obtain ⟨line, hline, hstop⟩ := h
  obtain ⟨above, below, rfl⟩ := List.append_of_mem hline
  rw [List.append_assoc, List.cons_append, joined_append hstop, joined_append hstop below]

/-- The logical line that the first lines of a listing go on in. -/
theorem logicalLine_of_continues (h : ∀ l ∈ cont, continues l = true) (hmore : more ≠ []) :
    (Listing.mk (cont ++ more)).logicalLine (cont.length + 1) = joined (cont ++ more) := by
  obtain ⟨line, more, rfl⟩ := List.exists_cons_of_ne_nil hmore
  have hindex : ((cont.length : Int) + 1 - 1).toNat = cont.length := by omega
  have hline : (Listing.mk (cont ++ line :: more)).line? (cont.length + 1) = some line := by
    rw [line?, if_pos (by omega), hindex, List.getElem?_append_right (Nat.le_refl _), Nat.sub_self]
    rfl
  have hall : (cont.reverse.takeWhile continues) = cont.reverse :=
    List.takeWhile_eq_self_iff.mpr fun l hl => h l (List.mem_reverse.mp hl)
  rw [logicalLine, hline]
  simp only
  rw [hindex, List.take_left, hall, List.length_reverse, Nat.sub_self, List.drop_zero]

end Listing

section
variable {c : Char} {cs line u : List Char} {p q : Place} {n : Nat}

/-- The characters of a text up to its first newline, without splices. -/
def beforeNewline (u : List Char) : List Char := (despliced u).takeWhile (· ≠ '\n')

/-- Whether the end of a line, given last character first, makes no splice with what follows. -/
def Parted (line u : List Char) : Prop :=
  line.head? = some '\\' → u.head? ≠ some '\n' ∧ ¬ ['\r', '\n'] <+: u

theorem Parted.nil (u : List Char) : Parted [] u := fun h => by cases h

theorem Parted.continues (h : Parted line u)
    (hu : u.head? = some '\n' ∨ ['\r', '\n'] <+: u) : Listing.continues line.reverse = false := by
  refine decide_eq_false fun hlast => ?_
  rw [List.getLast?_reverse] at hlast
  obtain ⟨hnewline, hreturn⟩ := h hlast
  exact hu.elim hnewline hreturn

/-- The ways in which a text that does not begin with a splice begins. -/
theorem cases_of_newlineEnds (h : Text.NewlineEnds (c :: cs))
    (hsplice : ∀ rest, c = '\\' → cs = '\n' :: rest → False)
    (hreturn : ∀ rest, c = '\\' → cs = '\r' :: '\n' :: rest → False) (line : List Char) :
    c = '\n' ∨ (c = '\r' ∧ ∃ rest, cs = '\n' :: rest) ∨
      (c ≠ '\n' ∧ Parted (c :: line) cs ∧
        Text.boundaryLinesFrom line (c :: cs) = Text.boundaryLinesFrom (c :: line) cs) := by
  by_cases hnewline : c = '\n'
  · exact .inl hnewline
  by_cases hpair : c = '\r' ∧ cs.head? = some '\n'
  · obtain ⟨rest, rfl⟩ := List.head?_eq_some_iff.mp hpair.2
    exact .inr (.inl ⟨hpair.1, rest, rfl⟩)
  have hboundary : ¬ Text.isLineBoundary c = true := fun hc => (h.1 hc).elim hnewline hpair
  refine .inr (.inr ⟨hnewline, ?_, ?_⟩)
  · intro hlast
    obtain rfl : c = '\\' := Option.some.inj hlast
    refine ⟨fun hhead => ?_, fun ⟨rest, hrest⟩ => hreturn rest rfl hrest.symm⟩
    obtain ⟨rest, rfl⟩ := List.head?_eq_some_iff.mp hhead
    exact hsplice rest rfl rfl
  · rw [Text.boundaryLinesFrom_cons, if_neg hboundary]
    rintro rest rfl rfl
    exact hpair ⟨rfl, rfl⟩

theorem boundaryLinesFrom_splice (line cs : List Char) :
    Text.boundaryLinesFrom line ('\\' :: '\n' :: cs) =
      (line.reverse ++ ['\\']) :: Text.boundaryLinesFrom [] cs := by
  rw [Text.boundaryLinesFrom_cons fun _ hc => absurd hc (by decide), if_neg (by decide),
    Text.boundaryLinesFrom_cons fun _ hc => absurd hc (by decide), if_pos (by decide),
    List.reverse_cons]

theorem boundaryLinesFrom_returnSplice (line cs : List Char) :
    Text.boundaryLinesFrom line ('\\' :: '\r' :: '\n' :: cs) =
      (line.reverse ++ ['\\']) :: Text.boundaryLinesFrom [] cs := by
  rw [Text.boundaryLinesFrom_cons fun _ hc => absurd hc (by decide), if_neg (by decide),
    Text.boundaryLinesFrom_return, List.reverse_cons]

theorem continues_concat (line : List Char) : Listing.continues (line ++ ['\\']) = true :=
  decide_eq_true List.getLast?_concat

theorem joined_splice (line : List Char) (lines : List (List Char)) :
    Listing.joined ((line ++ ['\\']) :: lines) = line ++ Listing.joined lines := by
  rw [Listing.joined, if_pos (continues_concat line), List.dropLast_concat]

/-- Whether `text` is what is joined of lines, but for a carriage return at its end, or for a backslash
where `final` holds. -/
def Joins (final : Prop) (text : List Char) (lines : List (List Char)) : Prop :=
  ∃ d, (d = [] ∨ d = ['\r'] ∨ d = ['\\'] ∧ final) ∧ text = Listing.joined lines ++ d

theorem Joins.splice {final final' : Prop} {text : List Char} {lines : List (List Char)}
    (h : Joins final text lines) (hfinal : final → final') (line : List Char) :
    Joins final' (line ++ text) ((line ++ ['\\']) :: lines) := by
  obtain ⟨d, hd, rfl⟩ := h
  refine ⟨d, hd.imp_right (Or.imp_right (And.imp_right hfinal)), ?_⟩
  rw [joined_splice, List.append_assoc]

/-- A line that does not go on in the next one is joined with none. -/
theorem Joins.stop (h : Listing.continues line = false) {d : List Char} (hd : d = [] ∨ d = ['\r'])
    (final : Prop) (lines : List (List Char)) : Joins final (line ++ d) (line :: lines) :=
  ⟨d, hd.imp_right .inl, by rw [Listing.joined, h]; rfl⟩

theorem beforeNewline_newline (cs : List Char) : beforeNewline ('\n' :: cs) = [] := by
  rw [beforeNewline, despliced_cons (by decide), List.takeWhile_cons_of_neg (by decide)]

theorem beforeNewline_return (cs : List Char) : beforeNewline ('\r' :: '\n' :: cs) = ['\r'] := by
  rw [beforeNewline, despliced_cons (by decide), List.takeWhile_cons_of_pos (by decide), ← beforeNewline,
    beforeNewline_newline]

/-- What is joined of the lines of a text is its first line without splices. A carriage return at its
end is lost, and so is a backslash at the end of the text. -/
theorem joins_boundaryLinesFrom (h : Text.NewlineEnds u) (hline : Parted line u) :
    Joins ((line.reverse ++ u).getLast? = some '\\') (line.reverse ++ beforeNewline u)
      (Text.boundaryLinesFrom line u) := by
  have hlast : ∀ {v w : List Char}, w <:+ v → ([].reverse ++ w).getLast? = some '\\' →
      v.getLast? = some '\\' := by
    rintro _ w ⟨v, rfl⟩ hw
    rw [List.getLast?_append, show w.getLast? = _ from hw]
    rfl
  fun_induction despliced u generalizing line with
  | case1 =>
    rw [Text.boundaryLinesFrom_nil, List.append_nil]
    cases line with
    | nil => exact ⟨[], .inl rfl, rfl⟩
    | cons c line =>
      cases hcontinues : Listing.continues (c :: line).reverse with
      | true =>
        have hlast : (c :: line).reverse.getLast? = some '\\' := of_decide_eq_true hcontinues
        obtain ⟨before, hbefore⟩ := List.getLast?_eq_some_iff.mp hlast
        refine ⟨['\\'], .inr (.inr ⟨rfl, hlast⟩), ?_⟩
        have hjoined : Listing.joined [before ++ ['\\']] = before := by
          rw [joined_splice, Listing.joined, List.append_nil]
        rw [hbefore, List.isEmpty_cons, if_neg Bool.false_ne_true, hjoined]
        exact List.append_nil _
      | false => exact .stop hcontinues (.inl rfl) _ []
  | case2 cs ih =>
    rw [boundaryLinesFrom_splice]
    exact (ih h.2.2 (.nil cs)).splice (hlast ⟨line.reverse ++ ['\\', '\n'], by simp⟩) _
  | case3 cs ih =>
    rw [boundaryLinesFrom_returnSplice]
    exact (ih h.2.2.2 (.nil cs)).splice (hlast ⟨line.reverse ++ ['\\', '\r', '\n'], by simp⟩) _
  | case4 c cs hsplice hreturn ih =>
    obtain rfl | ⟨rfl, rest, rfl⟩ | ⟨hc, hmore, hlines⟩ := cases_of_newlineEnds h hsplice hreturn line
    · rw [beforeNewline_newline, Text.boundaryLinesFrom_cons (fun _ hc => absurd hc (by decide)),
        if_pos (by decide)]
      exact .stop (hline.continues (.inl rfl)) (.inl rfl) _ _
    · rw [beforeNewline_return, Text.boundaryLinesFrom_return]
      exact .stop (hline.continues (.inr ⟨rest, rfl⟩)) (.inr rfl) _ _
    · have hfirst : beforeNewline (c :: cs) = c :: beforeNewline cs := by
        rw [beforeNewline, despliced, List.takeWhile_cons_of_pos (by simpa using hc), beforeNewline]
        · exact hsplice
        · exact hreturn
      have hjoins := ih h.2 hmore
      rw [List.reverse_cons, List.append_assoc, List.append_assoc] at hjoins
      rw [hfirst, hlines]
      exact hjoins

/-- Whether one comes from the line of `p` to that of `q` down lines that all go on in the next one. -/
def Descends (p q : Place) (lines : List (List Char)) : Prop :=
  ∃ above below, lines = above ++ below ∧ below ≠ [] ∧ (∀ l ∈ above, Listing.continues l = true) ∧
    q.line = p.line + above.length

theorem Descends.here {lines : List (List Char)} (h : q.line = p.line) (hne : lines ≠ []) :
    Descends p q lines :=
  ⟨[], lines, rfl, hne, List.forall_mem_nil _, h.trans (Int.add_zero _).symm⟩

theorem Descends.splice {lines : List (List Char)} {next : Place} (h : Descends next q lines)
    (hnext : next.line = p.line + 1) (line : List Char) :
    Descends p q ((line ++ ['\\']) :: lines) := by
  obtain ⟨above, below, rfl, hbelow, habove, hq⟩ := h
  refine ⟨(line ++ ['\\']) :: above, below, rfl, hbelow,
    List.forall_mem_cons.mpr ⟨continues_concat line, habove⟩, ?_⟩
  rw [hq, hnext, List.length_cons]
  omega

/-- The physical lines from the first one down to that of a character in the first logical line all go
on in the next one. -/
theorem descends_boundaryLinesFrom (h : Text.NewlineEnds u) (hline : Parted line u)
    (hp : (places p u)[n]? = some q) (hn : n < (despliced u).length)
    (hbefore : '\n' ∉ (despliced u).take n) : Descends p q (Text.boundaryLinesFrom line u) := by
  fun_induction despliced u generalizing line p n with
  | case1 => cases hn
  | case2 cs ih =>
    rw [boundaryLinesFrom_splice]
    exact (ih h.2.2 (.nil cs) hp hn hbefore).splice rfl _
  | case3 cs ih =>
    rw [boundaryLinesFrom_returnSplice]
    exact (ih h.2.2.2 (.nil cs) hp hn hbefore).splice rfl _
  | case4 c cs hsplice hreturn ih =>
    have hplaces : places p (c :: cs) = p :: places (p.after c) cs := by
      rw [places]
      · exact hsplice
      · exact hreturn
    have hne : Text.boundaryLinesFrom line (c :: cs) ≠ [] :=
      Text.boundaryLinesFrom_ne_nil (.inr (List.cons_ne_nil _ _))
    rw [hplaces] at hp
    cases n with
    | zero =>
      obtain rfl : p = q := Option.some.inj hp
      exact .here rfl hne
    | succ n =>
      rw [List.take_succ_cons, List.mem_cons, not_or] at hbefore
      rw [List.getElem?_cons_succ] at hp
      obtain rfl | ⟨rfl, rest, rfl⟩ | ⟨hc, hmore, hlines⟩ := cases_of_newlineEnds h hsplice hreturn line
      · exact absurd rfl hbefore.1
      · cases n with
        | zero =>
          rw [places] at hp
          · obtain rfl : p.after '\r' = q := Option.some.inj hp
            exact .here rfl hne
          · exact fun _ hc => absurd hc (by decide)
          · exact fun _ hc => absurd hc (by decide)
        | succ n =>
          rw [despliced_cons (by decide), List.take_succ_cons] at hbefore
          exact absurd List.mem_cons_self hbefore.2
      · obtain ⟨above, below, heq, hbelow, habove, hq⟩ :=
          ih h.2 hmore hp (Nat.lt_of_succ_lt_succ hn) hbefore.2
        refine ⟨above, below, hlines.trans heq, hbelow, habove, ?_⟩
        rw [hq, Place.after, if_neg hc]

end

namespace Source

variable {s : Source}

/-! ## The text of a line in the listing -/

namespace Line

variable {l : s.Line} {q : Place} {n : Nat}

/-- Whether the lines down to the end of a logical line are the same by newlines as by every line
boundary. -/
structure Counted (l : s.Line) : Prop where
  above : (Text.boundaryLines l.above.toList).length = l.above.toList.count '\n'
  text : Text.NewlineEnds l.text.toList

theorem chars_ne_nil (l : s.Line) : l.chars ≠ [] := by
  intro hnil
  have hne : CPreprocessor.lexemes l.chars ≠ [] := l.nonempty
  rw [hnil, CPreprocessor.lexemes] at hne
  exact hne rfl

/-- The lines of a text below which a new one begins do not all go on in the next one. -/
theorem exists_stop (hends : ({ s with text := l.above ++ l.text } : Source).EndsLine) :
    WholeLines l.text.toList ∧
      ∃ line ∈ Text.boundaryLines l.text.toList, Listing.continues line = false := by
  have hwhole : WholeLines l.chars := by
    have hboth : WholeLines (despliced (l.above ++ l.text).toList) := hends.despliced
    rw [String.toList_append, despliced_append (u := l.above.toList) l.endsLine.wholeLines] at hboth
    intro c hc
    exact hboth c (by rw [List.getLast?_append, show (despliced l.text.toList).getLast? = _ from hc]; rfl)
  obtain ⟨body, tail, htext, hbody, -⟩ := exists_lastNewline hwhole l.chars_ne_nil
  obtain ⟨above, stop, hlines, hstop⟩ := exists_boundaryLines_lastNewline hbody
  refine ⟨.of_despliced hwhole, stop, ?_, hstop⟩
  rw [htext, List.append_cons, Text.boundaryLines_append (.concat body), hlines]
  simp

/-- The listing gives the text of a logical line, up to the first newline in it, at each place there. A
carriage return at its end is lost, and so is a backslash at the end of the source. -/
theorem joins_logicalLine (hfirst : s.firstLine = 1) (h : l.Counted)
    (hq : l.source.places[n]? = some q) (hn : n < l.chars.length) (hbefore : '\n' ∉ l.chars.take n) :
    ∃ d, (d = [] ∨ d = ['\r'] ∨ d = ['\\'] ∧ l.text.toList.getLast? = some '\\') ∧
      beforeNewline l.text.toList = (Listing.ofText s.text).logicalLine q.line ++ d := by
  obtain ⟨cont, rest, hlines, hrest, hcont, hline⟩ :=
    descends_boundaryLinesFrom h.text (.nil _) hq hn hbefore
  obtain ⟨d, hd, hjoined⟩ := joins_boundaryLinesFrom h.text (.nil _)
  refine ⟨d, hd, ?_⟩
  -- what follows the line has no part in it
  obtain ⟨more, hbelow, hsame⟩ : ∃ more, Text.boundaryLines (l.text.toList ++ l.below.toList) =
      Text.boundaryLines l.text.toList ++ more ∧
        Listing.joined (Text.boundaryLines l.text.toList ++ more) =
          Listing.joined (Text.boundaryLines l.text.toList) := by
    rcases l.last with hends | hnone
    · obtain ⟨hwhole, hstop⟩ := exists_stop hends
      exact ⟨_, Text.boundaryLines_append hwhole _, Listing.joined_append_of_stop hstop _⟩
    · refine ⟨[], ?_, ?_⟩
      · rw [hnone, String.toList_empty, List.append_nil, List.append_nil]
      · rw [List.append_nil]
  have hlisting : Listing.ofText s.text =
      ⟨Text.boundaryLines l.above.toList ++ (cont ++ (rest ++ more))⟩ := by
    have hlines : Text.boundaryLines l.text.toList = cont ++ rest := hlines
    rw [Listing.ofText, l.text_eq, String.toList_append, String.toList_append, List.append_assoc,
      Text.boundaryLines_append (u := l.above.toList) l.endsLine.wholeLines, hbelow, hlines,
      List.append_assoc]
  have hplace : q.line = (Text.boundaryLines l.above.toList).length + cont.length + 1 := by
    have hfirstLine : l.source.firstLine = s.firstLine + l.above.toList.count '\n' := rfl
    rw [hline, hfirstLine, hfirst, h.above]
    simp only
    omega
  rw [hlisting, Listing.logicalLine_below (bare_of_despliced (u := l.above.toList) l.endsLine.despliced)
    (by omega)]
  have hnumber : q.line - (Text.boundaryLines l.above.toList).length = cont.length + 1 := by omega
  rw [hnumber, Listing.logicalLine_of_continues hcont (List.append_ne_nil_of_left_ne_nil hrest _),
    ← List.append_assoc, ← hlines, show Text.boundaryLinesFrom [] _ = _ from rfl]
  exact hjoined.trans (congrArg (· ++ d) hsame.symm)

end Line

end Source

/-! ## Tokens and lexemes of a line -/

/-- What comes after a fault is the end of its line. -/
theorem newline_after_fault {u skipped : List Char} {cause : LexFault} {ls' : List Lexeme} :
    ∀ ls, lexemes u = ls ++ .fault cause skipped :: ls' → ∀ x ∈ ls'.head?, x.kind = .newline := by
  fun_induction lexemes u with
  | case1 =>
    exact fun ls h => absurd h.symm (List.append_ne_nil_of_right_ne_nil _ (List.cons_ne_nil _ _))
  | case2 c cs kind n hfirst ih =>
    intro ls h
    cases ls with
    | nil => cases (List.cons.inj h).1
    | cons l ls => exact ih ls (List.cons.inj h).2
  | case3 c cs cause' hfirst n ih =>
    intro ls h
    cases ls with
    | nil =>
      obtain ⟨-, rfl⟩ := List.cons.inj h
      have hhead : ∀ d ∈ (cs.drop n).head?, d = '\n' := by
        simp only [n, Lexeme.faultLength]
        split
        · rw [List.drop_length]
          rintro d ⟨⟩
        · rw [Lexeme.spanLength, drop_length_takeWhile]
          exact fun d hd => by simpa using head?_dropWhile_eq_false hd
      cases hrest : cs.drop n with
      | nil =>
        rw [lexemes]
        rintro x ⟨⟩
      | cons d ds =>
        obtain rfl := hhead d (by rw [hrest]; rfl)
        rw [lexemes]
        rintro x ⟨⟩
        rfl
    | cons l ls => exact ih ls (List.cons.inj h).2

namespace Source

variable {s : Source}

theorem location_settle {ls : List Lexeme} {ps : List Place} {i : Nat} {t : Scanned}
    (h : (s.settle ls ps)[i]? = some t) :
    ∃ q, ps[((ls.take i).flatMap Lexeme.text).length]? = some q ∧ t.token.location = s.locate q := by
  induction ls generalizing ps i with
  | nil => cases h
  | cons l ls ih =>
    cases ps with
    | nil => cases h
    | cons p ps =>
      cases i with
      | zero =>
        obtain rfl := Option.some.inj h
        exact ⟨p, rfl, location_token s p l⟩
      | succ i =>
        obtain ⟨q, hq, hlocation⟩ := ih h
        refine ⟨q, ?_, hlocation⟩
        rw [List.take_succ_cons, List.flatMap_cons, List.length_append, ← List.getElem?_drop, hq]

namespace Line

variable {l : s.Line} {front back : List Scanned} {t : Scanned} {ls ls' : List Lexeme} {x : Lexeme}

/-- Before another token than the line end a line has no fault. -/
theorem exists_of_mem_front (h : l.lexemes = ls ++ x :: ls') (hx : x.kind ≠ .newline) :
    ∀ y ∈ ls, ∃ kind text, y = .token kind text ∧ kind ≠ .newline := by
  intro y hy
  have hsingle : ∀ z ∈ ls, z.kind ≠ .newline := fun z hz => l.single z (by
    rw [show CPreprocessor.lexemes (despliced l.text.toList) = _ from h,
      List.dropLast_append_of_ne_nil (List.cons_ne_nil _ _)]
    exact List.mem_append_left _ hz)
  cases y with
  | token kind text => exact ⟨kind, text, rfl, hsingle _ hy⟩
  | fault cause skipped =>
    obtain ⟨before, after, rfl⟩ := List.append_of_mem hy
    rw [List.append_assoc, List.cons_append] at h
    cases after with
    | nil => exact absurd (newline_after_fault _ h x rfl) hx
    | cons z after =>
      exact absurd (newline_after_fault _ h z rfl) (hsingle z (by simp))

theorem map_form_tokens (l : s.Line) : l.tokens.map Scanned.form = l.lexemes.map Lexeme.form :=
  l.source.map_form_scan

theorem exists_form_eq (ht : t ∈ l.tokens) : ∃ x ∈ l.lexemes, x.form = t.form :=
  List.mem_map.mp (l.map_form_tokens ▸ List.mem_map_of_mem ht)

theorem exists_token (hnone : ∀ t ∈ l.tokens, t.fault = none) :
    ∀ x ∈ l.lexemes, ∃ kind text, x = .token kind text := by
  intro x hx
  have hmem : x.form ∈ l.tokens.map Scanned.form := l.map_form_tokens ▸ List.mem_map_of_mem hx
  obtain ⟨t, ht, hform⟩ := List.mem_map.mp hmem
  cases x with
  | token kind text => exact ⟨kind, text, rfl⟩
  | fault cause skipped =>
    have hfault : t.fault = some cause := congrArg Prod.snd hform
    rw [hnone t ht] at hfault
    cases hfault

theorem text_of_newline (ht : t ∈ l.tokens) (hkind : t.token.kind = .newline) :
    t.token.text = "\n" := by
  obtain ⟨x, hx, hform⟩ := exists_form_eq ht
  cases x with
  | token kind text =>
    obtain rfl : kind = .newline := (congrArg (fun form => form.1.1) hform).trans hkind
    obtain rfl := text_newline (show .token .newline text ∈ CPreprocessor.lexemes l.chars from hx)
    exact (congrArg (fun form => form.1.2) hform).symm
  | fault cause skipped =>
    cases (congrArg (fun form => form.1.1) hform).trans hkind

/-- The lexeme of a token of a line, and the place where it begins. -/
theorem exists_place (h : l.tokens = front ++ t :: back) :
    ∃ ls x ls' q, l.lexemes = ls ++ x :: ls' ∧ front.map Scanned.form = ls.map Lexeme.form ∧
      t.form = x.form ∧ back.map Scanned.form = ls'.map Lexeme.form ∧
      l.source.places[(ls.flatMap Lexeme.text).length]? = some q ∧
      t.token.location = l.source.locate q := by
  have hforms := l.map_form_tokens
  rw [h, List.map_append, List.map_cons] at hforms
  obtain ⟨ls, rest, hlexemes, hfront, hrest⟩ := List.map_eq_append_iff.mp hforms.symm
  obtain ⟨x, ls', rfl, hx, hback⟩ := List.map_eq_cons_iff.mp hrest
  have hlength : ls.length = front.length := by
    have := congrArg List.length hfront
    rwa [List.length_map, List.length_map] at this
  have hget : l.tokens[front.length]? = some t := by
    rw [h, List.getElem?_append_right (Nat.le_refl _), Nat.sub_self]
    rfl
  obtain ⟨q, hq, hlocation⟩ := location_settle hget
  refine ⟨ls, x, ls', q, hlexemes, hfront.symm, hx.symm, hback.symm, ?_, hlocation⟩
  rw [show CPreprocessor.lexemes (despliced l.source.text.toList) = _ from hlexemes, ← hlength,
    List.take_left] at hq
  exact hq

theorem flatten_text_of_form {ts : List Token} {ys : List Lexeme}
    (h : ts.map Token.form = ys.map fun x => x.form.1)
    (hys : ∀ y ∈ ys, ∃ kind text, y = .token kind text) :
    (ts.map fun t => t.text.toList).flatten = ys.flatMap Lexeme.text := by
  induction ys generalizing ts with
  | nil => rw [List.map_eq_nil_iff.mp h]; rfl
  | cons y ys ih =>
    obtain ⟨t, ts, rfl, hy, hrest⟩ := List.map_eq_cons_iff.mp h
    obtain ⟨⟨kind, text, rfl⟩, hplain⟩ := List.forall_mem_cons.mp hys
    have htext : t.text = String.ofList text := congrArg Prod.snd hy
    rw [List.map_cons, List.flatten_cons, List.flatMap_cons, ih hrest hplain, htext, String.toList_ofList]
    rfl

/-- The tokens before another token than the line end are as they are written. -/
theorem flatMap_text_front (h : l.lexemes = ls ++ x :: ls') (hx : x.kind ≠ .newline)
    (hfront : front.map Scanned.form = ls.map Lexeme.form) :
    ls.flatMap Lexeme.text = front.flatMap fun f => f.token.text.toList := by
  have hforms : (front.map Scanned.token).map Token.form = ls.map fun x => x.form.1 := by
    have hfst := congrArg (List.map Prod.fst) hfront
    rw [List.map_map, List.map_map] at hfst
    rw [List.map_map]
    exact hfst
  rw [← flatten_text_of_form hforms fun y hy => ?_, List.map_map, List.flatMap_def]
  · rfl
  · obtain ⟨kind, text, heq, -⟩ := exists_of_mem_front h hx y hy
    exact ⟨kind, text, heq⟩

theorem kind_ne_of_form (hx : t.form = x.form) (ht : t.token.kind ≠ .newline) : x.kind ≠ .newline := by
  have hkind : t.token.kind = x.form.1.1 := congrArg (fun form => form.1.1) hx
  rw [hkind] at ht
  cases x with
  | token kind text => exact ht
  | fault cause skipped => rintro ⟨⟩

theorem chars_eq (h : l.lexemes = ls ++ x :: ls') :
    l.chars = ls.flatMap Lexeme.text ++ (x.text ++ ls'.flatMap Lexeme.text) ∧ x.text ≠ [] := by
  have h : CPreprocessor.lexemes l.chars = _ := h
  constructor
  · rw [← flatMap_text_lexemes l.chars, h, List.flatMap_append, List.flatMap_cons]
  · exact text_ne_nil (u := l.chars) (by rw [h]; exact List.mem_append_right _ List.mem_cons_self)

/-- The listing gives the text of a line, up to the first newline in it, at the place of each token that
stands before that newline. -/
theorem joins_location (hfirst : s.firstLine = 1) (h : l.Counted)
    (hl : l.tokens = front ++ t :: back) (ht : t.token.kind ≠ .newline)
    (hfront : ∀ f ∈ front, '\n' ∉ f.token.text.toList) :
    ∃ d, (d = [] ∨ d = ['\r'] ∨ d = ['\\'] ∧ l.text.toList.getLast? = some '\\') ∧
      beforeNewline l.text.toList =
        (Listing.ofText s.text).logicalLine t.token.location.line ++ d := by
  obtain ⟨ls, x, ls', q, hlexemes, hls, hx, -, hq, hlocation⟩ := exists_place hl
  have hkind : x.kind ≠ .newline := kind_ne_of_form hx ht
  obtain ⟨hchars, htext⟩ := chars_eq hlexemes
  rw [hlocation]
  refine joins_logicalLine hfirst h hq ?_ ?_
  · have := List.length_pos_iff.mpr htext
    rw [hchars, List.length_append, List.length_append]
    omega
  · rw [hchars, List.take_left, flatMap_text_front hlexemes hkind hls, List.mem_flatMap]
    exact fun ⟨f, hf, hmem⟩ => hfront f hf hmem

theorem not_mem_newline_front (hl : l.tokens = front ++ t :: back) (ht : t.token.kind ≠ .newline)
    (hline : '\n' ∉ l.chars.dropLast) : ∀ f ∈ front, '\n' ∉ f.token.text.toList := by
  obtain ⟨ls, x, ls', q, hlexemes, hls, hx, -, -, -⟩ := exists_place hl
  have hkind : x.kind ≠ .newline := kind_ne_of_form hx ht
  obtain ⟨hchars, hne⟩ := chars_eq hlexemes
  rw [hchars, List.dropLast_append_of_ne_nil (List.append_ne_nil_of_left_ne_nil hne _),
    flatMap_text_front hlexemes hkind hls] at hline
  exact fun f hf hmem =>
    hline (List.mem_append_left _ (List.mem_flatMap.mpr ⟨f, hf, hmem⟩))

theorem exists_fault {cause : LexFault} (hx : t.form = x.form) (hfault : t.fault = some cause) :
    ∃ skipped, x = .fault cause skipped := by
  have hform : x.form.2 = some cause := (congrArg Prod.snd hx).symm.trans hfault
  cases x with
  | token kind text => cases hform
  | fault cause' skipped =>
    cases hform
    exact ⟨skipped, rfl⟩

theorem kind_ne_of_fault {cause : LexFault} (hl : l.tokens = front ++ t :: back)
    (hfault : t.fault = some cause) : t.token.kind ≠ .newline := by
  obtain ⟨ls, x, ls', q, -, -, hx, -⟩ := exists_place hl
  obtain ⟨skipped, rfl⟩ := exists_fault hx hfault
  have hkind : t.token.kind = .whitespace := congrArg (fun form => form.1.1) hx
  rw [hkind]
  rintro ⟨⟩

/-- After a fault a line has at most its end. -/
theorem kind_after_fault {cause : LexFault} {skipped : List Char}
    (h : l.lexemes = ls ++ .fault cause skipped :: ls') : ∀ y ∈ ls', y.kind = .newline := by
  have hhead := newline_after_fault _ h
  cases ls' with
  | nil => exact List.forall_mem_nil _
  | cons z rest =>
    have hz : z.kind = .newline := hhead z rfl
    cases rest with
    | nil => exact List.forall_mem_singleton.mpr hz
    | cons y rest =>
      refine absurd hz (l.single z ?_)
      rw [show CPreprocessor.lexemes (despliced l.text.toList) = _ from h,
        List.dropLast_append_of_ne_nil (List.cons_ne_nil _ _)]
      simp

/-- A line does not end before a fault, and has at most its end after it. -/
theorem kind_around_fault {cause : LexFault} (hl : l.tokens = front ++ t :: back)
    (hfault : t.fault = some cause) :
    (∀ f ∈ front, f.token.kind ≠ .newline) ∧ ∀ f ∈ back, f.token.kind = .newline := by
  obtain ⟨ls, x, ls', q, hlexemes, hls, hx, hls', -, -⟩ := exists_place hl
  obtain ⟨skipped, rfl⟩ := exists_fault hx hfault
  have hkind : ∀ {fs : List Scanned} {ys : List Lexeme}, fs.map Scanned.form = ys.map Lexeme.form →
      ∀ f ∈ fs, ∃ y ∈ ys, f.token.kind = y.kind := by
    intro fs ys hmap f hf
    have hmem : f.form ∈ ys.map Lexeme.form := hmap ▸ List.mem_map_of_mem hf
    obtain ⟨y, hy, hform⟩ := List.mem_map.mp hmem
    refine ⟨y, hy, (congrArg (fun form => form.1.1) hform).symm.trans ?_⟩
    cases y with
    | token kind text => rfl
    | fault cause' skipped' => rfl
  constructor
  · intro f hf
    obtain ⟨y, hy, heq⟩ := hkind hls f hf
    obtain ⟨kind, text, rfl, hne⟩ := exists_of_mem_front hlexemes (by rintro ⟨⟩) y hy
    rw [heq]
    exact hne
  · intro f hf
    obtain ⟨y, hy, heq⟩ := hkind hls' f hf
    rw [heq, kind_after_fault hlexemes y hy]

/-- A line has no more than one fault. -/
theorem fault_eq_none {cause : LexFault} (hl : l.tokens = front ++ t :: back)
    (hfault : t.fault = some cause) : ∀ f ∈ front ++ back, f.fault = none := by
  obtain ⟨ls, x, ls', q, hlexemes, hls, hx, hls', -, -⟩ := exists_place hl
  obtain ⟨skipped, rfl⟩ := exists_fault hx hfault
  have hnone : ∀ {fs : List Scanned} {ys : List Lexeme}, fs.map Scanned.form = ys.map Lexeme.form →
      (∀ y ∈ ys, ∃ kind text, y = .token kind text) → ∀ f ∈ fs, f.fault = none := by
    intro fs ys hmap hys f hf
    have hmem : f.form ∈ ys.map Lexeme.form := hmap ▸ List.mem_map_of_mem hf
    obtain ⟨y, hy, hform⟩ := List.mem_map.mp hmem
    obtain ⟨kind, text, rfl⟩ := hys y hy
    exact (congrArg Prod.snd hform).symm
  intro f hf
  rcases List.mem_append.mp hf with hf | hf
  · refine hnone hls (fun y hy => ?_) f hf
    obtain ⟨kind, text, heq, -⟩ := exists_of_mem_front hlexemes (by rintro ⟨⟩) y hy
    exact ⟨kind, text, heq⟩
  · refine hnone hls' (fun y hy => ?_) f hf
    have hkind := kind_after_fault hlexemes y hy
    cases y with
    | token kind text => exact ⟨kind, text, rfl⟩
    | fault cause' skipped' => cases hkind

end Line

end Source

end CPreprocessor
