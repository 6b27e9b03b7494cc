import CPreprocessor.Proofs.Source.Reader

/-!
# Tokens of a text with its splices

The token at a character is read from the text as it is written. It is the first lexeme of the text
without the splices: the reader goes on by as many characters as `Lexeme.first` tells, or finds the
same fault and recovers to the end of what `Lexeme.faultLength` tells (`Reader.scanToken_reads`).
-/

namespace CPreprocessor

namespace Reader

/-! ## Faults -/

open Lexeme

variable {α : Type} {r : Reader} {c : Char} {cs : List Char} {fault : LexFault} {k m n : Nat}

/-- Whether a fault that was found behind `k` characters covers what is left of their line. -/
def Recovers (fault : LexFault) (cs : List Char) (k : Nat) : Prop :=
  k + spanLength (· ≠ '\n') (cs.drop k) = faultLength fault cs

theorem Recovers.of_le (hfault : fault ≠ .unterminatedComment)
    (h : k ≤ spanLength (· ≠ '\n') cs) : Recovers fault cs k := by
  rw [Recovers, faultLength, if_neg hfault, spanLength_drop h]

theorem Recovers.zero (hfault : fault ≠ .unterminatedComment) : Recovers fault cs 0 :=
  .of_le hfault (Nat.zero_le _)

theorem Recovers.add (hm : m ≤ spanLength (· ≠ '\n') cs) (h : Recovers fault (cs.drop m) k) :
    Recovers fault cs (m + k) := by
  have hle := spanLength_le (· ≠ '\n') cs
  have hdrop := spanLength_drop hm
  unfold Recovers faultLength at h ⊢
  rw [List.drop_drop, List.length_drop] at h
  split at h
  · rename_i hfault
    rw [if_pos hfault]
    omega
  · rename_i hfault
    rw [if_neg hfault]
    omega

theorem Recovers.comment_cons (h : Recovers .unterminatedComment cs k) (c : Char) :
    Recovers .unterminatedComment (c :: cs) (k + 1) := by
  rw [Recovers, faultLength, if_pos rfl] at h ⊢
  rw [List.drop_succ_cons, List.length_cons, Nat.add_right_comm, h]

/-- What was read by a reader at `r`: something of `n` characters, or else a fault, which recovery
takes to the end of what it covers. -/
def Reads (r : Reader) (result : Except LexFault α × Reader) : Except LexFault (α × Nat) → Prop
  | .ok (a, n) => result = (.ok a, r.skip n)
  | .error fault => ∃ k, result = (.error fault, r.skip k) ∧ Recovers fault r.ahead k

/-- Characters were read, as many as `length` tells. -/
def ReadsText (r : Reader) (result : Except LexFault (List Char) × Reader)
    (length : Except LexFault Nat) : Prop :=
  Reads r result (length.map fun n => ((r.take n).1, n))

theorem ReadsText.ok (n : Nat) (r : Reader) : ReadsText r (.ok (r.take n).1, r.skip n) (.ok n) := rfl

theorem ReadsText.error (h : Recovers fault r.ahead k) :
    ReadsText r (.error fault, r.skip k) (.error fault) :=
  ⟨k, rfl, h⟩

theorem Reads.exists_skip {result : Except LexFault α × Reader} {e : Except LexFault (α × Nat)}
    (h : Reads r result e) : ∃ k, result.2 = r.skip k := by
  rcases e with fault | ⟨a, n⟩
  · obtain ⟨k, rfl, -⟩ := h
    exact ⟨k, rfl⟩
  · obtain rfl : result = _ := h
    exact ⟨n, rfl⟩

theorem ReadsText.of_ok {length : Except LexFault Nat} {r' : Reader}
    (h : ReadsText r (.ok cs, r') length) : ∃ n, length = .ok n ∧ r.take n = (cs, r') := by
  cases length with
  | ok n =>
    cases h
    exact ⟨n, rfl, rfl⟩
  | error fault =>
    obtain ⟨k, heq, -⟩ := h
    cases heq

theorem ReadsText.of_error {length : Except LexFault Nat} {r' : Reader}
    (h : ReadsText r (.error fault, r') length) :
    length = .error fault ∧ ∃ k, r' = r.skip k ∧ Recovers fault r.ahead k := by
  cases length with
  | ok n => cases h
  | error fault' =>
    obtain ⟨k, heq, hk⟩ := h
    cases heq
    exact ⟨rfl, k, rfl, hk⟩

theorem Reads.map {β : Type} {result : Except LexFault α × Reader} {e : Except LexFault (α × Nat)}
    (h : Reads r result e) (f : α → β) :
    Reads r (result.1.map f, result.2) (e.map fun (a, n) => (f a, n)) := by
  rcases e with fault | ⟨a, n⟩
  · obtain ⟨k, rfl, hk⟩ := h
    exact ⟨k, rfl, hk⟩
  · obtain rfl : result = _ := h
    rfl

/-- What is read behind `m` characters. -/
theorem Reads.after {result : Except LexFault α × Reader} {e : Except LexFault (α × Nat)}
    (h : Reads (r.skip m) result e)
    (hrecovers : ∀ fault k, e = .error fault → Recovers fault (r.ahead.drop m) k →
      Recovers fault r.ahead (m + k)) :
    Reads r result (e.map fun (a, n) => (a, m + n)) := by
  rcases e with fault | ⟨a, n⟩
  · obtain ⟨k, rfl, hk⟩ := h
    rw [ahead_skip] at hk
    exact ⟨m + k, by rw [skip_add], hrecovers fault k rfl hk⟩
  · obtain rfl : result = _ := h
    exact congrArg (Prod.mk _) (skip_add m n r).symm

/-- What is read behind `m` characters, with these. -/
theorem ReadsText.after {result : Except LexFault (List Char) × Reader}
    {length : Except LexFault Nat} (h : ReadsText (r.skip m) result length)
    (hrecovers : ∀ fault k, length = .error fault → Recovers fault (r.ahead.drop m) k →
      Recovers fault r.ahead (m + k)) :
    ReadsText r (result.1.map ((r.take m).1 ++ ·), result.2) (length.map (· + m)) := by
  have hread := Reads.map (Reads.after h fun fault k hfault => hrecovers fault k
    (map_eq_error_iff.mp hfault)) ((r.take m).1 ++ ·)
  cases length with
  | error fault => exact hread
  | ok n =>
    rw [ReadsText, Except.map, Except.map, Nat.add_comm n, take_add]
    exact hread

/-- What is read behind a character, with that. -/
theorem ReadsText.cons {result : Except LexFault (List Char) × Reader}
    {length : Except LexFault Nat} (h : ReadsText r.advance.2 result length)
    (hrecovers : ∀ fault k, length = .error fault → Recovers fault (r.ahead.drop 1) k →
      Recovers fault r.ahead (1 + k)) :
    ReadsText r (result.1.map (r.advance.1 ++ ·), result.2) (length.map (· + 1)) := by
  rw [advance_eq]
  exact ReadsText.after h hrecovers

/-! ## Comments and escapes -/

/-- Reads a comment up to its end mark. -/
def readComment (r : Reader) : Except LexFault (List Char) × Reader :=
  if r.peek 0 = none then (.error .unterminatedComment, r)
  else if r.peek 0 = some '*' && r.peek 1 = some '/' then
    (.ok (r.advance.1 ++ r.advance.2.advance.1), r.advance.2.advance.2)
  else
    let after := readComment r.advance.2
    (after.1.map (r.advance.1 ++ ·), after.2)
termination_by r.rest.length
decreasing_by exact r.length_advance_lt (ahead_ne_nil ‹_›)

/-- Reads an escape behind its backslash. -/
def readEscape (r : Reader) : Except LexFault (List Char) × Reader :=
  match r.peek 0 with
  | none => (.error (.invalidEscape none), r)
  | some c =>
    if isSimpleEscape c then (.ok r.advance.1, r.advance.2)
    else if isOctalDigit c then
      let digits := r.readUpTo isOctalDigit 3
      (.ok digits.1, digits.2)
    else if c = 'x' then
      if (r.advance.2.peek 0).any isHexDigit then
        let digits := r.advance.2.readWhile isHexDigit
        (.ok (r.advance.1 ++ digits.1), digits.2)
      else (.error .hexEscapeWithoutDigits, r.advance.2)
    else if c = 'u' then
      let digits := r.advance.2.readExactly isHexDigit .incompleteShortName 4
      (digits.1.map (r.advance.1 ++ ·), digits.2)
    else if c = 'U' then
      let digits := r.advance.2.readExactly isHexDigit .incompleteLongName 8
      (digits.1.map (r.advance.1 ++ ·), digits.2)
    else (.error (.invalidEscape (if c = '\n' then none else some c)), r)

theorem commentLength_cons (c : Char) (cs : List Char) :
    commentLength (c :: cs) =
      if c = '*' && cs.head? = some '/' then .ok 2 else (commentLength cs).map (· + 1) := by
  split
  · rename_i h
    obtain ⟨rfl, hcs⟩ : c = '*' ∧ cs.head? = some '/' := by simpa using h
    cases cs with
    | nil => cases hcs
    | cons d cs =>
      cases hcs
      rfl
  · rename_i h
    rw [commentLength]
    rintro us rfl rfl
    exact h rfl

theorem readComment_reads (r : Reader) : ReadsText r r.readComment (commentLength r.ahead) := by
  fun_induction readComment r with
  | case1 r h =>
    have hnil := peek_eq_none_iff.mp h
    have hrecovers : Recovers .unterminatedComment r.ahead 0 := by
      rw [hnil]
      rfl
    rw [hnil, commentLength]
    exact .error hrecovers
  | case2 r hnone hend =>
    obtain ⟨hstar, hslash⟩ := Bool.and_eq_true_iff.mp hend
    have hlength : commentLength r.ahead = .ok 2 := by
      rw [peek_succ, ← head?_ahead] at hslash
      rw [ahead_of_peek (of_decide_eq_true hstar), commentLength_cons, hslash]
      rfl
    have hread := ReadsText.ok 2 r
    rw [take_succ, take_succ, take_zero, List.append_nil] at hread
    rw [hlength]
    exact hread
  | case3 r hnone hend after ih =>
    obtain ⟨c, hc⟩ := Option.ne_none_iff_exists'.mp hnone
    have hahead := ahead_of_peek hc
    have hlength : commentLength r.ahead = (commentLength r.advance.2.ahead).map (· + 1) := by
      rw [hc, peek_succ] at hend
      rw [hahead, commentLength_cons, head?_ahead, if_neg]
      simpa using hend
    rw [hlength]
    -- a newline may have been passed: it is the rest of the text that the fault covers, not the line
    refine ih.cons fun fault k hfault hk => ?_
    obtain rfl := commentLength_error hfault
    rw [hahead, List.drop_succ_cons] at hk
    rw [hahead, Nat.add_comm]
    exact hk.comment_cons c

theorem readExactly_reads (width : Nat) {fault : LexFault} (hfault : fault ≠ .unterminatedComment)
    (r : Reader) :
    ReadsText r (r.readExactly isHexDigit fault width) (universalLength width fault r.ahead) := by
  rw [readExactly_eq, universalLength, spanLength_take]
  by_cases hwidth : width ≤ spanLength isHexDigit r.ahead
  · rw [if_pos hwidth, if_pos (Nat.min_eq_left hwidth)]
    exact .ok width r
  · rw [if_neg hwidth, if_neg (by omega)]
    exact .error (.of_le hfault (spanLength_le_line (by decide) r.ahead))

theorem Recovers.cons (h : r.ahead = c :: cs) (hc : c ≠ '\n')
    (hk : Recovers fault (r.ahead.drop 1) k) : Recovers fault r.ahead (1 + k) := by
  refine Recovers.add ?_ hk
  rw [h, spanLength_cons, if_pos (decide_eq_true hc)]
  exact Nat.le_add_left 1 _

theorem readEscape_reads (r : Reader) : ReadsText r r.readEscape (escapeLength r.ahead) := by
  cases hahead : r.ahead with
  | nil =>
    rw [readEscape, peek_eq_none_iff.mpr hahead, escapeLength]
    exact .error (k := 0) (.zero (by decide))
  | cons c cs =>
    obtain rfl : r.advance.2.ahead = cs := ahead_advance_cons hahead
    rw [readEscape, peek_zero hahead, escapeLength]
    simp only
    split
    · rw [advance_eq]
      exact .ok 1 r
    split
    · rename_i hoctal
      have hdigits : min 3 (spanLength isOctalDigit r.ahead) =
          spanLength isOctalDigit (r.advance.2.ahead.take 2) + 1 := by
        rw [hahead, spanLength_cons, if_pos hoctal, spanLength_take]
        omega
      rw [readUpTo_eq, hdigits]
      exact .ok _ r
    split
    · rename_i hx
      have hrecovers : ∀ fault k, Recovers fault (r.ahead.drop 1) k → Recovers fault r.ahead (1 + k) :=
        fun fault k => Recovers.cons hahead (by rw [hx]; decide)
      split
      · rename_i hdigit
        rw [if_neg (by rw [spanLength_of_any hdigit]; exact Nat.succ_ne_zero _), readWhile_eq]
        exact (ReadsText.ok _ r.advance.2).cons (by rintro fault k ⟨⟩)
      · rename_i hdigit
        rw [if_pos (spanLength_of_not_any hdigit)]
        exact .error (k := 1) (hrecovers _ 0 (.zero (by decide)))
    split
    · rename_i hu
      have hread := readExactly_reads 4 (by decide : LexFault.incompleteShortName ≠ _) r.advance.2
      exact hread.cons fun fault k _ => Recovers.cons hahead (by rw [hu]; decide)
    split
    · rename_i hu
      have hread := readExactly_reads 8 (by decide : LexFault.incompleteLongName ≠ _) r.advance.2
      exact hread.cons fun fault k _ => Recovers.cons hahead (by rw [hu]; decide)
    · exact .error (k := 0) (.zero (by rintro ⟨⟩))

/-! ## Literals -/

theorem readEscape_suffix (r : Reader) : r.readEscape.2.rest <:+ r.rest := by
  obtain ⟨k, hk⟩ := r.readEscape_reads.exists_skip
  rw [hk]
  exact r.skip_suffix k

/-- Reads the body of a literal and its closing mark, and counts what the body is made of. -/
def readBody (quote : Char) (count : Nat) (r : Reader) : Except LexFault (List Char × Nat) × Reader :=
  if r.peek 0 = none || r.peek 0 = some '\n' then (.error (unterminated quote), r)
  else if r.peek 0 = some quote then (.ok (r.advance.1, count), r.advance.2)
  else if r.peek 0 = some '\\' then
    match _h : r.advance.2.readEscape with
    | (.error fault, after) => (.error fault, after)
    | (.ok escape, after) =>
      let rest := readBody quote (count + 1) after
      (rest.1.map fun (body, n) => (r.advance.1 ++ escape ++ body, n), rest.2)
  else
    let rest := readBody quote (count + 1) r.advance.2
    (rest.1.map fun (body, n) => (r.advance.1 ++ body, n), rest.2)
termination_by r.rest.length
decreasing_by
  · rename_i hslash
    have hle := r.advance.2.readEscape_suffix.length_le
    rw [_h] at hle
    exact Nat.lt_of_le_of_lt hle (r.length_advance_lt (ahead_ne_nil (by rw [hslash]; exact nofun)))
  · rename_i hend _ _
    exact r.length_advance_lt (ahead_ne_nil fun hnone => hend (by rw [hnone]; rfl))

theorem unterminated_ne (quote : Char) : unterminated quote ≠ .unterminatedComment := by
  unfold unterminated
  split
  · exact nofun
  · exact nofun

theorem map_fst_append (read : Except LexFault (List Char × Nat)) (cs : List Char) :
    (read.map fun (body, n) => (cs ++ body, n)).map Prod.fst = (read.map Prod.fst).map (cs ++ ·) := by
  cases read with
  | error fault => rfl
  | ok read => rfl

theorem goes_on (h : ¬ (r.peek 0 = none || r.peek 0 = some '\n') = true) :
    ∃ c, r.peek 0 = some c ∧ c ≠ '\n' ∧ r.ahead = c :: r.advance.2.ahead := by
  obtain ⟨hnone, hnewline⟩ : ¬ r.peek 0 = none ∧ ¬ r.peek 0 = some '\n' := by simpa using h
  obtain ⟨c, hc⟩ := Option.ne_none_iff_exists'.mp hnone
  exact ⟨c, hc, fun heq => hnewline (by rw [hc, heq]), ahead_of_peek hc⟩

theorem readBody_reads (quote : Char) (count : Nat) (r : Reader) :
    ReadsText r ((r.readBody quote count).1.map Prod.fst, (r.readBody quote count).2)
      (bodyLength quote r.ahead) := by
  fun_induction readBody quote count r with
  | case1 count r hend =>
    have hlength : bodyLength quote r.ahead = .error (unterminated quote) := by
      cases hahead : r.ahead with
      | nil => exact bodyLength_nil
      | cons c cs =>
        rw [peek_zero hahead] at hend
        obtain rfl : c = '\n' := by simpa using hend
        exact bodyLength_newline quote cs
    rw [hlength]
    exact .error (k := 0) (.zero (unterminated_ne quote))
  | case2 count r hend hquote =>
    obtain ⟨c, hc, hnewline, hahead⟩ := goes_on hend
    obtain rfl : c = quote := Option.some.inj (hc.symm.trans hquote)
    rw [hahead, bodyLength_mark hnewline, advance_eq]
    exact .ok 1 r
  | case3 count r hend hquote hslash fault after hescape =>
    obtain ⟨c, hc, hnewline, hahead⟩ := goes_on hend
    obtain rfl : c = '\\' := Option.some.inj (hc.symm.trans hslash)
    have hescaped : '\\' ≠ quote := fun heq => hquote (by rw [hc, heq])
    have hread := r.advance.2.readEscape_reads
    rw [hescape] at hread
    obtain ⟨hlength, k, rfl, hk⟩ := hread.of_error
    rw [ahead_advance] at hk
    rw [hahead, bodyLength_escape_error hescaped hlength]
    have hread := ReadsText.error (Recovers.cons hahead hnewline hk)
    rw [Nat.add_comm, skip_succ] at hread
    exact hread
  | case4 count r hend hquote hslash escape after hescape rest ih =>
    obtain ⟨c, hc, hnewline, hahead⟩ := goes_on hend
    obtain rfl : c = '\\' := Option.some.inj (hc.symm.trans hslash)
    have hescaped : '\\' ≠ quote := fun heq => hquote (by rw [hc, heq])
    have hread := r.advance.2.readEscape_reads
    rw [hescape] at hread
    obtain ⟨n, hlength, htake⟩ := hread.of_ok
    -- the backslash and its escape are `n + 1` characters of the same line
    have htaken : r.take (n + 1) = (r.advance.1 ++ escape, after) := by rw [take_succ, htake]
    obtain rfl : r.skip (n + 1) = after := congrArg Prod.snd htaken
    have hle : n + 1 ≤ spanLength (· ≠ '\n') r.ahead := by
      rw [hahead, spanLength_cons, if_pos (decide_eq_true hnewline)]
      exact Nat.succ_le_succ (escapeLength_le_line hlength)
    have hbody : bodyLength quote r.ahead =
        (bodyLength quote (r.skip (n + 1)).ahead).map (· + (n + 1)) := by
      rw [ahead_skip, hahead, bodyLength_escape hescaped hlength, List.drop_succ_cons]
    have hread := ReadsText.after ih fun fault k _ hk => Recovers.add hle hk
    rw [htaken] at hread
    rw [hbody, map_fst_append]
    exact hread
  | case5 count r hend hquote hslash rest ih =>
    obtain ⟨c, hc, hnewline, hahead⟩ := goes_on hend
    have hbody : bodyLength quote r.ahead = (bodyLength quote r.advance.2.ahead).map (· + 1) := by
      rw [hc, Option.some.injEq] at hquote hslash
      rw [hahead, bodyLength_plain hnewline hquote hslash]
    rw [hbody, map_fst_append]
    exact ih.cons fun fault k _ => Recovers.cons hahead hnewline

/-- Only the mark was read if nothing was counted. -/
theorem count_readBody {quote : Char} {count : Nat} {body : List Char}
    (h : (r.readBody quote count).1 = .ok (body, n)) :
    body ≠ [] ∧ count ≤ n ∧ (n = count ↔ body.length = 1) := by
  fun_induction readBody quote count r generalizing body n with
  | case1 => cases h
  | case2 count r hend hquote =>
    obtain ⟨rfl, rfl⟩ := Prod.mk.inj (Except.ok.inj h)
    rw [fst_advance_cons (ahead_of_peek hquote)]
    exact ⟨List.cons_ne_nil _ _, Nat.le_refl _, iff_of_true rfl rfl⟩
  | case3 => cases h
  | case4 count r hend hquote hslash escape after hescape rest =>
    rename_i ih
    obtain ⟨⟨body, n⟩, hrest, heq⟩ := map_eq_ok_iff.mp h
    cases heq
    obtain ⟨hbody, hle, -⟩ := ih hrest
    have hpos := List.length_pos_iff.mpr hbody
    rw [fst_advance_cons (ahead_of_peek hslash)]
    refine ⟨List.append_ne_nil_of_right_ne_nil _ hbody, Nat.le_of_succ_le hle,
      iff_of_false (Nat.ne_of_gt hle) ?_⟩
    simp only [List.length_append, List.length_cons]
    omega
  | case5 count r hend hquote hslash rest =>
    rename_i ih
    obtain ⟨c, -, -, hahead⟩ := goes_on hend
    obtain ⟨⟨body, n⟩, hrest, heq⟩ := map_eq_ok_iff.mp h
    cases heq
    obtain ⟨hbody, hle, -⟩ := ih hrest
    have hpos := List.length_pos_iff.mpr hbody
    rw [fst_advance_cons hahead]
    refine ⟨List.append_ne_nil_of_right_ne_nil _ hbody, Nat.le_of_succ_le hle,
      iff_of_false (Nat.ne_of_gt hle) ?_⟩
    rw [List.length_append, List.length_singleton]
    omega

/-- Reads a literal with the opening mark `quote`, behind the name that gives it an encoding. -/
def readLiteral (quote : Char) (encoding : List Char) (r : Reader) :
    Except LexFault (Kind × List Char) × Reader :=
  match r.advance.2.readBody quote 0 with
  | (.error fault, after) => (.error fault, after)
  | (.ok (body, count), after) =>
    if quote = '"' then (.ok (.string, encoding ++ r.advance.1 ++ body), after)
    else if count = 0 then (.error .emptyCharacter, after)
    else (.ok (.character, encoding ++ r.advance.1 ++ body), after)

theorem readLiteral_reads (quote : Char) (encoding : List Char) (r : Reader) :
    Reads r.advance.2 (r.readLiteral quote encoding)
      ((literalLength quote r.advance.2.ahead).map fun (kind, n) =>
        ((kind, encoding ++ (r.take (n + 1)).1), n)) := by
  have hread := r.advance.2.readBody_reads quote 0
  rw [readLiteral, literalLength]
  rcases hbody : r.advance.2.readBody quote 0 with ⟨fault | ⟨body, count⟩, after⟩
  · rw [hbody] at hread
    obtain ⟨hlength, k, rfl, hk⟩ := hread.of_error
    rw [hlength]
    exact ⟨k, rfl, hk⟩
  · replace hread : ReadsText r.advance.2 (.ok body, after) (bodyLength quote r.advance.2.ahead) := by
      rw [hbody] at hread
      exact hread
    obtain ⟨n, hlength, htake⟩ := hread.of_ok
    obtain rfl : (r.advance.2.take n).1 = body := congrArg Prod.fst htake
    obtain rfl : r.advance.2.skip n = after := congrArg Prod.snd htake
    have hcount : count = 0 ↔ n = 1 := by
      rw [(count_readBody (congrArg Prod.fst hbody)).2.2, take,
        List.length_take_of_le (bodyLength_le hlength)]
    have htext : encoding ++ (r.take (n + 1)).1 =
        encoding ++ r.advance.1 ++ (r.advance.2.take n).1 := by
      rw [take_succ, List.append_assoc]
    rw [hlength]
    simp only
    by_cases hstring : quote = '"'
    · rw [if_pos hstring, if_pos hstring, ← htext]
      rfl
    rw [if_neg hstring, if_neg hstring]
    by_cases hempty : n = 1
    · subst hempty
      rw [if_pos (hcount.mpr rfl), if_pos rfl]
      exact ⟨1, rfl, .of_le (by decide) (bodyLength_le_line hlength)⟩
    · rw [if_neg (mt hcount.mp hempty), if_neg hempty, ← htext]
      rfl

/-! ## Names and punctuators -/

/-- A word is looked up among the encodings, as `Lexeme.nameLength` does. -/
instance : DecidablePred (· ∈ encodingPrefixes) := fun word =>
  decidable_of_iff (encodingPrefixes.contains word = true) List.contains_iff_mem

/-- Reads an identifier, or a literal that it gives an encoding. -/
def readName (r : Reader) : Except LexFault (Kind × List Char) × Reader :=
  let name := r.readWhile isNameChar
  match name.2.peek 0 with
  | some quote =>
    if name.1 ∈ encodingPrefixes ∧ IsQuote quote then name.2.readLiteral quote name.1
    else (.ok (.identifier, name.1), name.2)
  | none => (.ok (.identifier, name.1), name.2)

/-- Whether the characters of `spelling` are ahead. -/
def stands (r : Reader) (spelling : List Char) : Bool :=
  spelling.zipIdx.all fun (c, n) => r.peek n = some c

/-- Reads the longest punctuator, or a character on its own. -/
def readPunctuator (r : Reader) : (Kind × List Char) × Reader :=
  match punctuators.find? r.stands with
  | some spelling => ((.punctuator, spelling), r.skip spelling.length)
  | none => ((.other, r.advance.1), r.advance.2)

section
variable {word after rest : List Char} {quote : Char}

theorem take_word (h : r.ahead = c :: (word ++ after)) : (r.take (word.length + 1)).1 = c :: word := by
  rw [take, h, List.take_succ_cons, List.take_left]

theorem ahead_skip_word (h : r.ahead = c :: (word ++ after)) :
    (r.skip (word.length + 1)).ahead = after := by
  rw [ahead_skip, h, List.drop_succ_cons, List.drop_left]

/-- A name before what does not go on with it. -/
theorem readWhile_word (h : r.ahead = c :: (word ++ after)) (hc : isNameStart c = true)
    (hword : spanLength isNameChar word = word.length)
    (hstop : ∀ d ∈ after.head?, isNameChar d = false) :
    r.readWhile isNameChar = (c :: word, r.skip (word.length + 1)) := by
  rw [readWhile_eq, ← take_word h, h, spanLength_cons, if_pos (by rw [isNameChar, hc]; rfl),
    spanLength_append_of_stop hword hstop]
  rfl

theorem word_le_line (hword : spanLength isNameChar word = word.length) (hquote : IsQuote quote)
    (rest : List Char) : word.length + 1 ≤ spanLength (· ≠ '\n') (word ++ quote :: rest) := by
  have hstop : ∀ d ∈ (quote :: rest).head?, isNameChar d = false := by
    rintro d ⟨⟩
    exact hquote.not_isNameChar
  have hle := spanLength_le_line (p := isNameChar) (by decide) (word ++ quote :: rest)
  rw [spanLength_append_of_stop hword hstop] at hle
  have hdrop := spanLength_drop hle
  have hnewline : quote ≠ '\n' := by
    rintro rfl
    exact absurd hquote (by decide)
  rw [List.drop_left, spanLength_cons, if_pos (decide_eq_true hnewline)] at hdrop
  omega

theorem readLiteral_encoded (h : r.ahead = c :: (word ++ quote :: rest))
    (hword : spanLength isNameChar word = word.length) (hpre : c :: word ∈ encodingPrefixes)
    (hquote : IsQuote quote) :
    Reads r.advance.2 ((r.skip (word.length + 1)).readLiteral quote (c :: word))
      ((nameLength c (word ++ quote :: rest)).map fun (kind, n) =>
        ((kind, (r.take (n + 1)).1), n)) := by
  have hahead : r.advance.2.ahead = word ++ quote :: rest := ahead_advance_cons h
  have hline := word_le_line hword hquote rest
  rw [← hahead] at hline
  have hread := readLiteral_reads quote (c :: word) (r.skip (word.length + 1))
  rw [advance_skip] at hread
  replace hread := hread.after fun fault k _ => Recovers.add hline
  have hrest : (r.advance.2.skip (word.length + 1)).ahead = rest := by
    rw [ahead_skip, hahead, ← List.drop_drop, List.drop_left]
    rfl
  rw [hrest] at hread
  rw [nameLength_encoded hword hpre hquote]
  cases hlength : literalLength quote rest with
  | error fault =>
    rw [hlength] at hread
    exact hread
  | ok found =>
    obtain ⟨kind, n⟩ := found
    have htext : (r.take (word.length + 1 + n + 1)).1 =
        c :: word ++ ((r.skip (word.length + 1)).take (n + 1)).1 := by
      rw [Nat.add_assoc _ n, take_add, take_word h]
    simp only [Except.map, htext]
    rw [hlength] at hread
    exact hread

theorem readName_reads (h : r.ahead = c :: cs) (hc : isNameStart c = true) :
    Reads r.advance.2 r.readName
      ((nameLength c cs).map fun (kind, n) => ((kind, (r.take (n + 1)).1), n)) := by
  obtain ⟨word, after, rfl, hword, hstop⟩ := exists_word cs
  have hafter := ahead_skip_word h
  have hplain (hquote : c :: word ∈ encodingPrefixes → ∀ d ∈ after.head?, ¬ IsQuote d) :
      Reads r.advance.2 (.ok (.identifier, c :: word), r.skip (word.length + 1))
        ((nameLength c (word ++ after)).map fun (kind, n) => ((kind, (r.take (n + 1)).1), n)) := by
    rw [nameLength_word hword hstop hquote, ← take_word h]
    rfl
  rw [readName, readWhile_word h hc hword hstop]
  simp only
  cases after with
  | nil =>
    rw [peek_eq_none_iff.mpr hafter]
    exact hplain fun _ => nofun
  | cons quote rest =>
    rw [peek_zero hafter]
    simp only
    by_cases hencoded : c :: word ∈ encodingPrefixes ∧ IsQuote quote
    · rw [if_pos hencoded]
      exact readLiteral_encoded h hword hencoded.1 hencoded.2
    · rw [if_neg hencoded]
      refine hplain ?_
      rintro hpre d ⟨⟩ hquote
      exact hencoded ⟨hpre, hquote⟩

end

theorem stands_eq (r : Reader) (spelling : List Char) :
    r.stands spelling = spelling.isPrefixOf r.ahead := by
  rw [Bool.eq_iff_iff, List.isPrefixOf_iff_prefix, List.prefix_iff_getElem?, stands,
    List.all_eq_true]
  constructor
  · intro hall n hn
    have hpeek := hall _ (List.mk_mem_zipIdx_iff_getElem?.mpr (List.getElem?_eq_getElem hn))
    rw [← peek_eq]
    exact of_decide_eq_true hpeek
  · rintro hpre ⟨c, n⟩ hmem
    obtain ⟨hn, rfl⟩ := List.getElem?_eq_some_iff.mp (List.mk_mem_zipIdx_iff_getElem?.mp hmem)
    exact decide_eq_true ((r.peek_eq n).trans (hpre n hn))

theorem readPunctuator_eq (h : r.ahead = c :: cs) :
    r.readPunctuator =
      (((punctuatorLength c cs).1, (r.take ((punctuatorLength c cs).2 + 1)).1),
        r.skip ((punctuatorLength c cs).2 + 1)) := by
  have hstands : r.stands = fun spelling => spelling.isPrefixOf (c :: cs) := by
    rw [← h]
    exact funext r.stands_eq
  rw [readPunctuator, punctuatorLength, hstands]
  cases hfind : punctuators.find? fun spelling => spelling.isPrefixOf (c :: cs) with
  | none =>
    rw [advance_eq]
    rfl
  | some spelling =>
    have hpre : spelling <+: c :: cs := List.isPrefixOf_iff_prefix.mp
      (List.find?_some (p := fun spelling : List Char => spelling.isPrefixOf (c :: cs)) hfind)
    obtain ⟨d, hd, -⟩ := singleton_of_mem_punctuators (List.mem_of_find?_eq_some hfind)
    cases spelling with
    | nil => cases hd
    | cons e spelling =>
      have htake : (r.take (spelling.length + 1)).1 = e :: spelling := by
        rw [take, h]
        exact (List.prefix_iff_eq_take.mp hpre).symm
      simp only [List.length_cons, Nat.add_sub_cancel, htake]

/-! ## Tokens -/

/-- Characters that were read, as a token. -/
def found (kind : Kind) (read : List Char × Reader) : Except LexFault (Kind × List Char) × Reader :=
  (.ok (kind, read.1), read.2)

/-- Reads a comment with both of its marks. -/
def readBlock (r : Reader) : Except LexFault (List Char) × Reader :=
  let rest := r.advance.2.advance.2.readComment
  (rest.1.map (r.advance.1 ++ r.advance.2.advance.1 ++ ·), rest.2)

/-- Reads the token that begins with `c`, the next character. -/
def scanToken (c : Char) (r : Reader) : Except LexFault (Kind × List Char) × Reader :=
  if c = '\n' then found .newline r.advance
  else if isBlank c then found .whitespace (r.readWhile isBlank)
  else if c = '/' && r.peek 1 = some '/' then found .comment (r.readWhile (· ≠ '\n'))
  else if c = '/' && r.peek 1 = some '*' then
    let read := r.readBlock
    (read.1.map (Kind.comment, ·), read.2)
  else if Text.isDigit c || (c = '.' && (r.peek 1).any Text.isDigit) then
    let rest := r.advance.2.readNumber
    found .number (r.advance.1 ++ rest.1, rest.2)
  else if isNameStart c then r.readName
  else if c = '"' || c = '\'' then r.readLiteral c []
  else
    let read := r.readPunctuator
    (.ok read.1, read.2)

/-- Goes on to the end of the line. -/
def recover (r : Reader) : Reader := (r.readWhile (· ≠ '\n')).2

theorem found_reads (kind : Kind) (n : Nat) (r : Reader) :
    Reads r.advance.2 (found kind (r.take (n + 1))) (.ok ((kind, (r.take (n + 1)).1), n)) := rfl

theorem readWhile_cons {p : Char → Bool} (h : r.ahead = c :: cs) (hc : p c = true) :
    r.readWhile p = r.take (spanLength p cs + 1) := by
  rw [readWhile_eq, h, spanLength_cons, if_pos hc]

theorem readBlock_reads (h : r.advance.2.ahead = c :: cs) :
    Reads r.advance.2 (r.readBlock.1.map (Kind.comment, ·), r.readBlock.2)
      (((commentLength cs).map fun n => (Kind.comment, n + 1)).map fun (kind, n) =>
        ((kind, (r.take (n + 1)).1), n)) := by
  obtain rfl : r.advance.2.advance.2.ahead = cs := ahead_advance_cons h
  have hread := r.advance.2.advance.2.readComment_reads
  cases hlength : commentLength r.advance.2.advance.2.ahead with
  | ok n =>
    rw [hlength] at hread
    have htext : (r.take (n + 1 + 1)).1 =
        r.advance.1 ++ r.advance.2.advance.1 ++ (r.advance.2.advance.2.take n).1 := by
      rw [take_succ, take_succ, List.append_assoc]
    have heq : r.advance.2.advance.2.readComment =
        (.ok (r.advance.2.advance.2.take n).1, r.advance.2.skip (n + 1)) := hread
    simp only [readBlock, heq, Except.map, htext]
    rfl
  | error fault =>
    rw [hlength] at hread
    obtain ⟨k, heq, hk⟩ := hread
    obtain rfl := commentLength_error hlength
    refine ⟨k + 1, ?_, ?_⟩
    · rw [readBlock, heq]
      rfl
    · rw [h]
      exact hk.comment_cons c

/-- What is read at a character is the lexeme of the text without splices that begins there. -/
theorem scanToken_reads (h : r.ahead = c :: cs) :
    Reads r.advance.2 (r.scanToken c)
      ((first c cs).map fun (kind, n) => ((kind, (r.take (n + 1)).1), n)) := by
  have hpeek : r.peek 1 = cs.head? := by rw [peek_succ, ← head?_ahead, ahead_advance_cons h]
  obtain rfl : r.advance.2.ahead = cs := ahead_advance_cons h
  unfold scanToken first
  rw [hpeek]
  by_cases hnewline : c = '\n'
  · rw [if_pos hnewline, if_pos hnewline, advance_eq]
    exact found_reads .newline 0 r
  rw [if_neg hnewline, if_neg hnewline]
  by_cases hblank : isBlank c = true
  · rw [if_pos hblank, if_pos hblank, readWhile_cons h hblank]
    exact found_reads .whitespace _ r
  rw [if_neg hblank, if_neg hblank]
  by_cases hline : (c = '/' && r.advance.2.ahead.head? = some '/') = true
  · rw [if_pos hline, if_pos hline, readWhile_cons h (decide_eq_true hnewline)]
    exact found_reads .comment _ r
  rw [if_neg hline, if_neg hline]
  by_cases hblock : (c = '/' && r.advance.2.ahead.head? = some '*') = true
  · have hstar := of_decide_eq_true (Bool.and_eq_true_iff.mp hblock).2
    obtain ⟨cs, hahead⟩ := List.head?_eq_some_iff.mp hstar
    rw [if_pos hblock, if_pos hblock, hahead]
    exact readBlock_reads hahead
  rw [if_neg hblock, if_neg hblock]
  by_cases hnumber : (Text.isDigit c || (c = '.' && r.advance.2.ahead.head?.any Text.isDigit)) = true
  · have hread := found_reads .number (numberLength r.advance.2.ahead) r
    rw [if_pos hnumber, if_pos hnumber, readNumber_eq]
    simp only [← take_succ]
    exact hread
  rw [if_neg hnumber, if_neg hnumber]
  by_cases hname : isNameStart c = true
  · rw [if_pos hname, if_pos hname]
    exact readName_reads h hname
  rw [if_neg hname, if_neg hname]
  by_cases hquote : (c = '"' || c = '\'') = true
  · rw [if_pos hquote, if_pos hquote]
    exact readLiteral_reads c [] r
  rw [if_neg hquote, if_neg hquote, readPunctuator_eq h]
  rfl

theorem recover_eq (r : Reader) : r.recover = r.skip (spanLength (· ≠ '\n') r.ahead) := by
  rw [recover, readWhile_eq, take]

theorem scanToken_ok {kind : Kind} {text : List Char} {after : Reader} (h : r.ahead = c :: cs)
    (hscan : r.scanToken c = (.ok (kind, text), after)) :
    ∃ n, first c cs = .ok (kind, n) ∧ text = r.ahead.take (n + 1) ∧ after = r.skip (n + 1) := by
  have hreads := scanToken_reads h
  rw [hscan] at hreads
  cases hfirst : first c cs with
  | error fault =>
    rw [hfirst] at hreads
    obtain ⟨k, heq, -⟩ := hreads
    cases heq
  | ok found =>
    obtain ⟨kind', n⟩ := found
    rw [hfirst] at hreads
    cases hreads
    exact ⟨n, rfl, rfl, rfl⟩

/-- Recovery takes a reader to the end of what a fault covers. -/
theorem scanToken_error {after : Reader} (h : r.ahead = c :: cs)
    (hscan : r.scanToken c = (.error fault, after)) :
    first c cs = .error fault ∧ after.recover = r.skip (faultLength fault cs + 1) := by
  have hreads := scanToken_reads h
  rw [hscan] at hreads
  cases hfirst : first c cs with
  | error cause =>
    rw [hfirst] at hreads
    obtain ⟨k, heq, hk⟩ := hreads
    cases heq
    rw [ahead_advance_cons h] at hk
    rw [recover_eq, ← skip_add, ahead_skip, ahead_advance_cons h, hk, skip_succ]
    exact ⟨rfl, rfl⟩
  | ok found =>
    rw [hfirst] at hreads
    cases hreads

/-- A token takes at least one character, and so does a fault, with or without what it covers. -/
theorem exists_scanToken (h : r.peek 0 = some c) {after : Reader}
    (hafter : after ∈ [(r.scanToken c).2, (r.scanToken c).2.recover]) :
    ∃ n, after = r.skip (n + 1) := by
  obtain ⟨n, hn⟩ := (scanToken_reads (ahead_of_peek h)).exists_skip
  rw [hn, recover_eq, ← skip_succ, ← skip_add, List.mem_cons, List.mem_singleton,
    Nat.add_right_comm] at hafter
  rcases hafter with rfl | rfl
  · exact ⟨n, rfl⟩
  · exact ⟨_, rfl⟩

theorem suffix_scanToken (h : r.peek 0 = some c) {after : Reader}
    (hafter : after ∈ [(r.scanToken c).2, (r.scanToken c).2.recover]) :
    after.rest <:+ r.rest := by
  obtain ⟨n, rfl⟩ := exists_scanToken h hafter
  exact r.skip_suffix (n + 1)

theorem length_scanToken_lt (h : r.peek 0 = some c) {after : Reader}
    (hafter : after ∈ [(r.scanToken c).2, (r.scanToken c).2.recover]) :
    after.rest.length < r.rest.length := by
  obtain ⟨n, rfl⟩ := exists_scanToken h hafter
  exact Nat.lt_of_le_of_lt (r.advance.2.skip_suffix n).length_le
    (r.length_advance_lt (ahead_ne_nil (by rw [h]; exact nofun)))

theorem length_ahead_scanToken (h : r.peek 0 = some c) {after : Reader}
    (hafter : after ∈ [(r.scanToken c).2, (r.scanToken c).2.recover]) :
    after.ahead.length < r.ahead.length := by
  obtain ⟨n, rfl⟩ := exists_scanToken h hafter
  rw [ahead_skip, ahead_of_peek h, List.drop_succ_cons, List.length_drop, List.length_cons]
  omega

end Reader

end CPreprocessor
