import Mathlib
import CPreprocessor.Proofs.Source.LineText
import CPreprocessor.Proofs.Source.Tokenize

/-!
# Places are counted in the source as written

Reading keeps a line and a column, and goes on with them over every character and every splice. What
it keeps is what can be counted: the newlines above an offset, and the characters between the last of
them and the offset (`Place.afterAll_eq_behind`). So every token, the end token and every fault stands
where its first character is in the source as written (`Source.tokenize_location`).
-/

namespace CPreprocessor

/-! ## Offsets -/

/-- The offsets of the characters that `despliced` keeps, and of the end. -/
def offsets : List Char → List Nat
  | [] => [0]
  | '\\' :: '\n' :: cs => (offsets cs).map (· + 2)
  | '\\' :: '\r' :: '\n' :: cs => (offsets cs).map (· + 3)
  | _ :: cs => 0 :: (offsets cs).map (· + 1)

/-- Whether an offset cuts a text into one that is `front` without its splices, and one that is `back`
without them and does not begin with one. -/
structure Splits (u : List Char) (n : Nat) (front back : List Char) : Prop where
  le : n ≤ u.length
  before : despliced (u.take n) = front
  after : despliced (u.drop n) = back
  bare : bare (u.drop n) = u.drop n

section
variable {c : Char} {u cs front back : List Char} {k m n : Nat}

theorem length_offsets (u : List Char) : (offsets u).length = (despliced u).length + 1 := by
  fun_induction despliced u with
  | case1 => rfl
  | case2 cs ih | case3 cs ih => rw [offsets, List.length_map, ih]
  | case4 c cs hsplice hreturn ih =>
    rw [offsets, List.length_cons, List.length_map, ih, List.length_cons]
    · exact hsplice
    · exact hreturn

/-- What stands before a splice is not a part of it. -/
theorem despliced_cons_take (hsplice : ∀ rest, c = '\\' → cs = '\n' :: rest → False)
    (hreturn : ∀ rest, c = '\\' → cs = '\r' :: '\n' :: rest → False) (n : Nat) :
    despliced (c :: cs.take n) = c :: despliced (cs.take n) := by
  rw [despliced]
  · intro rest hc hrest
    have hcs := List.take_append_drop n cs
    rw [hrest, List.cons_append] at hcs
    exact hsplice _ hc hcs.symm
  · intro rest hc hrest
    have hcs := List.take_append_drop n cs
    rw [hrest, List.cons_append, List.cons_append] at hcs
    exact hreturn _ hc hcs.symm

/-- The offset of each character that is left when the splices are gone. -/
theorem splits_of_getElem? (h : (offsets u)[k]? = some n) :
    Splits u n ((despliced u).take k) ((despliced u).drop k) := by
  fun_induction despliced u generalizing k n with
  | case1 =>
    obtain ⟨rfl, rfl⟩ : k = 0 ∧ n = 0 := by
      cases k with
      | zero => exact ⟨rfl, (Option.some.inj h).symm⟩
      | succ k => cases h
    exact ⟨Nat.le_refl 0, rfl, rfl, rfl⟩
  | case2 cs ih | case3 cs ih =>
    rw [offsets, List.getElem?_map, Option.map_eq_some_iff] at h
    obtain ⟨m, hm, rfl⟩ := h
    obtain ⟨hle, hbefore, hafter, hbare⟩ := ih hm
    exact ⟨Nat.add_le_add_right hle _, hbefore, hafter, hbare⟩
  | case4 c cs hsplice hreturn ih =>
    have hoffsets : offsets (c :: cs) = 0 :: (offsets cs).map (· + 1) := by
      rw [offsets]
      · exact hsplice
      · exact hreturn
    rw [hoffsets] at h
    cases k with
    | zero =>
      obtain rfl : 0 = n := Option.some.inj h
      refine ⟨Nat.zero_le _, rfl, ?_, ?_⟩
      · rw [List.drop_zero, List.drop_zero, despliced]
        · exact hsplice
        · exact hreturn
      · rw [List.drop_zero, bare]
        · rintro rest ⟨⟩
          exact hsplice rest rfl rfl
        · rintro rest ⟨⟩
          exact hreturn rest rfl rfl
    | succ k =>
      rw [List.getElem?_cons_succ, List.getElem?_map, Option.map_eq_some_iff] at h
      obtain ⟨m, hm, rfl⟩ := h
      obtain ⟨hle, hbefore, hafter, hbare⟩ := ih hm
      refine ⟨Nat.succ_le_succ hle, ?_, hafter, hbare⟩
      rw [List.take_succ_cons, despliced_cons_take hsplice hreturn, hbefore, List.take_succ_cons]

/-- Characters that are left follow each other in the text as written. -/
theorem pairwise_offsets (u : List Char) : (offsets u).Pairwise (· < ·) := by
  have hmap : ∀ {ns : List Nat} (d : Nat), ns.Pairwise (· < ·) →
      (ns.map (· + d)).Pairwise (· < ·) := fun d h =>
    List.pairwise_map.mpr (h.imp fun hlt => Nat.add_lt_add_right hlt d)
  fun_induction despliced u with
  | case1 => exact List.pairwise_singleton _ _
  | case2 cs ih | case3 cs ih =>
    rw [offsets]
    exact hmap _ ih
  | case4 c cs hsplice hreturn ih =>
    rw [offsets, List.pairwise_cons]
    · refine ⟨fun n hn => ?_, hmap 1 ih⟩
      obtain ⟨m, -, rfl⟩ := List.mem_map.mp hn
      exact Nat.succ_pos m
    · exact hsplice
    · exact hreturn

theorem Splits.eq_length (h : Splits u n front []) : n = u.length := by
  have hnil : u.drop n = [] := by
    have hafter := h.after
    rw [Reader.despliced_eq_bare, h.bare] at hafter
    cases hdrop : u.drop n with
    | nil => rfl
    | cons c cs =>
      rw [hdrop] at hafter
      cases hafter
  exact Nat.le_antisymm h.le (List.drop_eq_nil_iff.mp hnil)

end

/-! ## Places -/

namespace Place

/-- The place behind a text that begins a line: as many lines further down as it has newlines, and as
many columns to the right as it has characters behind the last of them. -/
def behind (line : Int) (u : List Char) : Place :=
  ⟨line + u.count '\n', 1 + (u.reverse.takeWhile (· ≠ '\n')).length⟩

theorem behind_concat (line : Int) (u : List Char) (c : Char) :
    behind line (u ++ [c]) = (behind line u).after c := by
  rw [after, behind, behind, List.count_append, List.reverse_append, List.reverse_singleton,
    List.singleton_append]
  split
  · rename_i hc
    subst hc
    rw [List.count_singleton_self, List.takeWhile_cons_of_neg (by decide), nextLine, Int.natCast_add,
      ← Int.add_assoc]
    rfl
  · rename_i hc
    rw [List.count_singleton, if_neg (by simpa using hc), List.takeWhile_cons_of_pos (by simpa using hc),
      List.length_cons, Nat.add_zero, Int.natCast_add, ← Int.add_assoc]
    rfl

/-- The place that is kept while a text is read is the one that is counted in it. -/
theorem afterAll_eq_behind (line : Int) (u : List Char) : afterAll ⟨line, 1⟩ u = behind line u := by
  induction u using List.reverseRecOn with
  | nil => exact congrArg (Place.mk · 1) (Int.add_zero line).symm
  | append_singleton u c ih =>
    rw [behind_concat, ← ih, afterAll, List.foldl_append]
    rfl

end Place

/-- The places of a text are those behind its offsets. -/
theorem places_eq_map_offsets (p : Place) (u : List Char) :
    places p u = (offsets u).map fun n => p.afterAll (u.take n) := by
  fun_induction places p u with
  | case1 p => rfl
  | case2 p cs ih | case3 p cs ih =>
    rw [ih, offsets, List.map_map]
    rfl
  | case4 p c cs hsplice hreturn ih =>
    rw [ih, offsets, List.map_cons, List.map_map]
    · rfl
    · exact hsplice
    · exact hreturn

/-! ## Tokens -/

namespace Source

variable {s : Source} {ts : List Scanned} {t : Scanned} {i j n : Nat}

/-- The location of offset `n` of a source. -/
def locationAt (s : Source) (n : Nat) : Location :=
  s.locate (.behind s.firstLine (s.text.toList.take n))

/-- The lexemes of a source. -/
def lexed (s : Source) : List Lexeme := lexemes (despliced s.text.toList)

/-- How many characters, splices left out, stand before lexeme number `i`. -/
def before (s : Source) (i : Nat) : Nat := ((s.lexed.take i).flatMap Lexeme.text).length

/-- The offset of the first character of lexeme number `i`, or of the end behind the last one. -/
def offset (s : Source) (i : Nat) : Nat := (offsets s.text.toList).getD (s.before i) 0

theorem flatMap_take_drop (s : Source) (i : Nat) :
    (s.lexed.take i).flatMap Lexeme.text ++ (s.lexed.drop i).flatMap Lexeme.text =
      despliced s.text.toList := by
  rw [← List.flatMap_append, List.take_append_drop, lexed, flatMap_text_lexemes]

theorem before_le (s : Source) (i : Nat) : s.before i ≤ (despliced s.text.toList).length := by
  rw [← s.flatMap_take_drop i, List.length_append]
  exact Nat.le_add_right _ _

theorem before_lt (h : i < j) (hj : j ≤ s.lexed.length) : s.before i < s.before j := by
  obtain ⟨k, rfl⟩ := Nat.exists_eq_add_of_lt h
  have hi : i < s.lexed.length := by omega
  have hpos : 0 < s.lexed[i].text.length :=
    List.length_pos_iff.mpr (text_ne_nil (List.getElem_mem hi))
  rw [before, before, Nat.add_assoc, List.take_add, List.flatMap_append, List.length_append,
    List.drop_eq_getElem_cons hi, List.take_succ_cons, List.flatMap_cons, List.length_append]
  omega

theorem getElem?_offsets (s : Source) (i : Nat) :
    (offsets s.text.toList)[s.before i]? = some (s.offset i) := by
  have hlt : s.before i < (offsets s.text.toList).length := by
    rw [length_offsets]
    exact Nat.lt_succ_of_le (s.before_le i)
  rw [offset, List.getD_eq_getElem?_getD, List.getElem?_eq_getElem hlt, Option.getD_some]

/-- The first character of a lexeme stands at its offset, behind those of the lexemes before it. -/
theorem splits_offset (s : Source) (i : Nat) :
    Splits s.text.toList (s.offset i) ((s.lexed.take i).flatMap Lexeme.text)
      ((s.lexed.drop i).flatMap Lexeme.text) := by
  have h := splits_of_getElem? (s.getElem?_offsets i)
  rwa [← s.flatMap_take_drop i, before, List.take_left, List.drop_left] at h

theorem offset_lt (h : i < j) (hj : j ≤ s.lexed.length) : s.offset i < s.offset j := by
  obtain ⟨hi, hoffset⟩ := List.getElem?_eq_some_iff.mp (s.getElem?_offsets i)
  obtain ⟨hj', hoffset'⟩ := List.getElem?_eq_some_iff.mp (s.getElem?_offsets j)
  rw [← hoffset, ← hoffset']
  exact List.pairwise_iff_getElem.mp (pairwise_offsets _) _ _ hi hj' (before_lt h hj)

theorem offset_length (s : Source) : s.offset s.lexed.length = s.text.toList.length := by
  have h := s.splits_offset s.lexed.length
  rw [List.drop_length] at h
  exact h.eq_length

/-- The place at which a lexeme is put is that of its offset. -/
theorem getElem?_places (s : Source) (i : Nat) :
    s.places[s.before i]? = some (.behind s.firstLine (s.text.toList.take (s.offset i))) := by
  rw [places, places_eq_map_offsets, List.getElem?_map, getElem?_offsets, Option.map_some,
    Place.afterAll_eq_behind]

theorem location_scan (h : s.scan[i]? = some t) :
    i < s.lexed.length ∧ s.lexed[i]?.map Lexeme.form = some t.form ∧
      t.token.location = s.locationAt (s.offset i) := by
  have hform : s.lexed[i]?.map Lexeme.form = some t.form := by
    rw [← List.getElem?_map, lexed, ← map_form_scan, List.getElem?_map, h, Option.map_some]
  have hlt : i < s.lexed.length := by
    obtain ⟨l, hl, -⟩ := Option.map_eq_some_iff.mp hform
    exact (List.getElem?_eq_some_iff.mp hl).1
  obtain ⟨q, hq, hlocation⟩ := location_settle h
  obtain rfl := Option.some.inj ((s.getElem?_places i).symm.trans hq)
  exact ⟨hlt, hform, hlocation⟩

theorem location_endToken (s : Source) :
    s.endToken.location = s.locationAt (s.offset s.lexed.length) := by
  have hlast : s.places.length - 1 = s.before s.lexed.length := by
    rw [places, length_places, before, List.take_length, lexed, flatMap_text_lexemes,
      Nat.add_sub_cancel]
  have h := s.getElem?_places s.lexed.length
  rw [← hlast, ← List.getLast?_eq_getElem?] at h
  rw [endToken, List.getLastD_eq_getLast?, h]
  rfl

/-- Reading stops at a fault, or else gets to the end. -/
theorem outcome_cases (s : Source) (lenient : Bool) (last : Token) (ts : List Scanned) :
    s.outcome lenient last ts = (ts, .ok last) ∨
      lenient = false ∧ ∃ front t back cause, ts = front ++ t :: back ∧ t.fault = some cause ∧
        s.outcome lenient last ts = (front, .error (s.report t.token.location cause)) := by
  induction ts with
  | nil => exact .inl rfl
  | cons t ts ih =>
    rw [outcome]
    cases hstop : s.stop? lenient t with
    | none =>
      rcases ih with ih | ⟨hstrict, front, u, back, cause, rfl, hcause, ih⟩
      · exact .inl (by simp only [ih])
      · exact .inr ⟨hstrict, t :: front, u, back, cause, rfl, hcause, by simp only [ih]⟩
    | some report =>
      unfold stop? at hstop
      split at hstop
      · cases hstop
      · rename_i hlenient
        obtain ⟨cause, hcause, rfl⟩ := Option.map_eq_some_iff.mp hstop
        exact .inr ⟨Bool.eq_false_iff.mpr hlenient, [], t, ts, cause, rfl, hcause, rfl⟩

/-- Every token that is read, the end token and the report that stops reading stand where their first
character is in the source as written: in the line that is as many lines below the first one as
there are newlines before the character, and in the column that is one more than the number of
characters between the last of these and the character. The offsets of the tokens increase, and that
of the end token is the length of the source. -/
theorem tokenize_location (s : Source) (lenient : Bool) :
    s.tokenize true = (s.scan, .ok s.endToken) ∧
    (s.tokens = (s.tokenize false).2.map fun _ => (s.tokenize false).1.map Scanned.token) ∧
    (∀ i, Splits s.text.toList (s.offset i) ((s.lexed.take i).flatMap Lexeme.text)
        ((s.lexed.drop i).flatMap Lexeme.text)) ∧
    (∀ i j, i < j → j ≤ s.lexed.length → s.offset i < s.offset j) ∧
    s.offset s.lexed.length = s.text.toList.length ∧
    (∀ i t, (s.tokenize lenient).1[i]? = some t →
      i < s.lexed.length ∧ s.lexed[i]?.map Lexeme.form = some t.form ∧
        t.token.location = s.locationAt (s.offset i) ∧
        ∀ report ∈ s.reportOf? t, report.location = some (s.locationAt (s.offset i))) ∧
    match (s.tokenize lenient).2 with
    | .ok last =>
      (s.tokenize lenient).1.length = s.lexed.length ∧
        last.location = s.locationAt s.text.toList.length
    | .error report =>
      lenient = false ∧ ∃ cause skipped,
        s.lexed[(s.tokenize lenient).1.length]? = some (.fault cause skipped) ∧
          report = s.report (s.locationAt (s.offset (s.tokenize lenient).1.length)) cause := by
  have hscan : ∀ i t, s.scan[i]? = some t →
      i < s.lexed.length ∧ s.lexed[i]?.map Lexeme.form = some t.form ∧
        t.token.location = s.locationAt (s.offset i) ∧
        ∀ report ∈ s.reportOf? t, report.location = some (s.locationAt (s.offset i)) := by
    intro i t h
    obtain ⟨hlt, hform, hlocation⟩ := location_scan h
    refine ⟨hlt, hform, hlocation, fun report hreport => ?_⟩
    obtain ⟨cause, -, rfl⟩ := Option.map_eq_some_iff.mp hreport
    rw [hlocation]
    rfl
  refine ⟨by rw [tokenize_eq, outcome_lenient], s.tokens_eq_tokenize, s.splits_offset,
    fun i j => offset_lt, s.offset_length, ?_⟩
  rw [tokenize_eq]
  rcases s.outcome_cases lenient s.endToken s.scan with
    hall | ⟨hstrict, front, t, back, cause, hsplit, hcause, hstop⟩
  · rw [hall]
    exact ⟨hscan, s.length_scan, by rw [← offset_length, location_endToken]⟩
  · have hfront : ∀ i u, front[i]? = some u → s.scan[i]? = some u := fun i u hu => by
      rw [hsplit, List.getElem?_append_left (List.getElem?_eq_some_iff.mp hu).1, hu]
    have ht : s.scan[front.length]? = some t := by
      rw [hsplit, List.getElem?_append_right (Nat.le_refl _), Nat.sub_self]
      rfl
    obtain ⟨-, hform, hlocation, -⟩ := hscan _ t ht
    rw [hstop]
    refine ⟨fun i u hu => hscan i u (hfront i u hu), hstrict, cause, ?_⟩
    obtain ⟨l, hl, hlform⟩ := Option.map_eq_some_iff.mp hform
    cases l with
    | token kind text =>
      have hnone : (none : Option LexFault) = t.fault := congrArg Prod.snd hlform
      rw [hcause] at hnone
      cases hnone
    | fault cause' skipped =>
      have hsame : some cause' = t.fault := congrArg Prod.snd hlform
      rw [hcause] at hsame
      obtain rfl := Option.some.inj hsame
      exact ⟨skipped, hl, by rw [hlocation]⟩

/-- A comment with a line end in it, an operator with a splice in it, and a quote that is not closed. -/
def splitSource : Source := { text := "a/*\n*/+\\\n='x", firstLine := 7 }

/-- The operator begins before the splice, and the quote stands behind it. -/
theorem tokenize_location_split :
    (splitSource.tokenize false).1.length = 3 ∧ splitSource.offset 2 < splitSource.offset 3 ∧
      (∃ t, (splitSource.tokenize false).1[2]? = some t ∧ t.token.text = "+=" ∧
        t.token.location = ⟨"<input>", 8, 3⟩) ∧
      ∃ cause skipped, splitSource.lexed[3]? = some (.fault cause skipped) ∧
        splitSource.report ⟨"<input>", 9, 2⟩ .unterminatedCharacter =
          splitSource.report (splitSource.locationAt (splitSource.offset 3)) cause := by
  obtain ⟨-, -, -, hless, -, htokens, hstop⟩ := tokenize_location splitSource false
  have hlexed : splitSource.lexed = [.token .identifier ['a'],
      .token .comment "/*\n*/".toList, .token .punctuator ['+', '='],
      .fault .unterminatedCharacter ['\'', 'x']] := by decide +kernel
  have hread : splitSource.tokenize false =
      (splitSource.scan.take 3, .error (splitSource.report ⟨"<input>", 9, 2⟩ .unterminatedCharacter)) := by
    rw [tokenize_eq]
    decide +kernel
  have hlength : (splitSource.scan.take 3).length = 3 := by decide +kernel
  have htwo : (splitSource.scan.take 3)[2]? = some (splitSource.scan.getD 2 default) := by
    decide +kernel
  have hplace : splitSource.locationAt (splitSource.offset 2) = ⟨"<input>", 8, 3⟩ := by decide +kernel
  rw [hread] at htokens hstop ⊢
  simp only [hlength] at hstop
  obtain ⟨-, -, hlocation, -⟩ := htokens 2 _ htwo
  exact ⟨hlength, hless 2 3 (by decide) (by rw [hlexed]; decide),
    ⟨_, htwo, by decide +kernel, hlocation.trans hplace⟩, hstop.2⟩

end Source

end CPreprocessor
