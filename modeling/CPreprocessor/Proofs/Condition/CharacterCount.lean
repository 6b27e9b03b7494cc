import CPreprocessor.Proofs.Condition.Conversion
import CPreprocessor.Proofs.Condition.LoneConstant
import CPreprocessor.Proofs.Source.Tokenize

/-!
# What is counted in a character constant

Escapes are read twice: the lexer counts the characters and escapes of a literal while it reads them
(`Reader.readBody`), and `Constant.codesAt` decodes the body by positions, without a look at what the
lexer found. Both cut a body into the same parts (`Reader.codes_of_readBody`, `Constant.codesAt_eq`),
so the character constants of a source are decoded, into as many codes as were counted
(`Source.decodes_character`).
-/

namespace CPreprocessor

open Lexeme

/-! ## Decoding by positions -/

namespace Constant

variable {text : String} {body e rest : List Char} {codes : List Nat} {base code pos next : Nat}

/-- The position of the first character from `pos` on that does not satisfy `p`, or else of the bound
or the end. -/
def behindAt (p : Char → Bool) (body : List Char) (bound pos : Nat) :
    Except (Stop ConditionFault) Nat :=
  if pos < body.length ∧ pos < bound then
    match found body[pos]? with
    | .error stop => .error stop
    | .ok c => if p c then behindAt p body bound (pos + 1) else .ok pos
  else .ok pos
termination_by body.length - pos

/-- The number of the digits from `start` to before `next`, and that position. -/
def numberAt (base : Nat) (body : List Char) (start next : Nat) :
    Except (Stop ConditionFault) (Nat × Nat) :=
  if next ≤ body.length then
    (numberChecked base ((body.drop start).take (next - start))).map fun code => (code, next)
  else .error .outOfRange

/-- The code of the escape whose backslash is at `pos`, and the position behind the escape. -/
def escapeAt (text : String) (body : List Char) (pos : Nat) :
    Except (Stop ConditionFault) (Nat × Nat) :=
  match found body[pos + 1]? with
  | .error stop => .error stop
  | .ok c =>
    match simpleEscape? c with
    | some code => .ok (code, pos + 2)
    | none =>
      if isOctalDigit c then
        match behindAt isOctalDigit body (pos + 4) (pos + 1) with
        | .error stop => .error stop
        | .ok next => numberAt 8 body (pos + 1) next
      else if c = 'x' then
        match behindAt isHexDigit body body.length (pos + 2) with
        | .error stop => .error stop
        | .ok next => numberAt 16 body (pos + 2) next
      else if c = 'u' then numberAt 16 body (pos + 2) (pos + 6)
      else if c = 'U' then numberAt 16 body (pos + 2) (pos + 10)
      else .error (.raised (.invalidEscape text))

theorem behindAt_eq (p : Char → Bool) (body : List Char) (bound pos : Nat) :
    behindAt p body bound pos =
      .ok (pos + (((body.drop pos).take (bound - pos)).takeWhile p).length) := by
  fun_induction behindAt p body bound pos with
  | case1 pos hlt stop hfound =>
    rw [found_getElem? hlt.1] at hfound
    cases hfound
  | case2 pos hlt c hfound hp ih =>
    rw [found_getElem? hlt.1] at hfound
    cases hfound
    obtain ⟨n, hn⟩ : ∃ n, bound - pos = n + 1 := ⟨bound - (pos + 1), by omega⟩
    have hn' : bound - (pos + 1) = n := by omega
    rw [ih, hn, hn', List.drop_eq_getElem_cons hlt.1, List.take_succ_cons, List.takeWhile_cons_of_pos hp,
      List.length_cons, Nat.add_right_comm, Nat.add_assoc]
  | case3 pos hlt c hfound hp =>
    rw [found_getElem? hlt.1] at hfound
    cases hfound
    obtain ⟨n, hn⟩ : ∃ n, bound - pos = n + 1 := ⟨bound - (pos + 1), by omega⟩
    rw [hn, List.drop_eq_getElem_cons hlt.1, List.take_succ_cons, List.takeWhile_cons_of_neg hp]
    rfl
  | case4 pos hlt =>
    have hnil : (body.drop pos).take (bound - pos) = [] := by
      rcases Nat.lt_or_ge pos body.length with hpos | hpos
      · rw [Nat.sub_eq_zero_of_le (Nat.le_of_not_lt fun h => hlt ⟨hpos, h⟩), List.take_zero]
      · rw [List.drop_eq_nil_of_le hpos, List.take_nil]
    rw [hnil]
    rfl

theorem next_of_numberAt {start : Nat} (h : numberAt base body start next = .ok (code, pos)) :
    pos = next := by
  rw [numberAt] at h
  split at h
  · obtain ⟨_, -, heq⟩ := map_eq_ok_iff.mp h
    exact (congrArg Prod.snd heq).symm
  · cases h

/-- An escape is at least a backslash. -/
theorem lt_of_escapeAt (h : escapeAt text body pos = .ok (code, next)) : pos < next := by
  unfold escapeAt at h
  split at h
  · cases h
  split at h
  · cases h
    omega
  split at h
  · rw [behindAt_eq] at h
    obtain rfl := next_of_numberAt h
    omega
  split at h
  · rw [behindAt_eq] at h
    obtain rfl := next_of_numberAt h
    omega
  split at h
  · obtain rfl := next_of_numberAt h
    omega
  split at h
  · obtain rfl := next_of_numberAt h
    omega
  · cases h

/-- The codes of the characters and escapes of a body from a position on. -/
def codesAt (text : String) (body : List Char) (pos : Nat) :
    Except (Stop ConditionFault) (List Nat) :=
  if pos < body.length then
    match found body[pos]? with
    | .error stop => .error stop
    | .ok c =>
      if c = '\\' then
        match _h : escapeAt text body pos with
        | .error stop => .error stop
        | .ok (code, next) => (codesAt text body next).map (code :: ·)
      else (codesAt text body (pos + 1)).map (c.toNat :: ·)
  else .ok []
termination_by body.length - pos
decreasing_by
  · have hlt := lt_of_escapeAt _h
    omega
  · omega

/-- The codes of a character constant, between its marks. -/
def decodeAt (text : String) : Except (Stop ConditionFault) (List Nat) :=
  match found (text.toList.idxOf? '\'') with
  | .error stop => .error stop
  | .ok mark => codesAt text (text.toList.drop (mark + 1)).dropLast 0

theorem getElem?_of_drop {c : Char} {cs : List Char} (h : body.drop pos = c :: cs) :
    body[pos]? = some c ∧ body.drop (pos + 1) = cs := by
  rw [← List.drop_drop, h]
  refine ⟨?_, rfl⟩
  rw [← List.head?_drop, h, List.head?_cons]

/-- Digits that stand in the body are found as a number. -/
theorem numberAt_eq {digits : List Char} (h : body.drop pos = digits ++ rest) (ne : digits ≠ [])
    (all : ∀ d ∈ digits, isDigitOf base d = true) :
    numberAt base body pos (pos + digits.length) =
      .ok (positional base digits, pos + digits.length) := by
  have hlength : (digits ++ rest).length = body.length - pos := by rw [← h, List.length_drop]
  have hpos := List.length_pos_iff.mpr ne
  rw [List.length_append] at hlength
  rw [numberAt, if_pos (by omega), h, Nat.add_sub_cancel_left, List.take_left, numberChecked_eq ne all,
    number_eq_positional]
  rfl

theorem escapeAt_of_mark {c : Char} (hc : body[pos + 1]? = some c) (hplain : simpleEscape? c = none) :
    escapeAt text body pos =
      if isOctalDigit c then
        numberAt 8 body (pos + 1)
          (pos + 1 + (((body.drop (pos + 1)).take 3).takeWhile isOctalDigit).length)
      else if c = 'x' then
        numberAt 16 body (pos + 2) (pos + 2 + ((body.drop (pos + 2)).takeWhile isHexDigit).length)
      else if c = 'u' then numberAt 16 body (pos + 2) (pos + 2 + 4)
      else if c = 'U' then numberAt 16 body (pos + 2) (pos + 2 + 8)
      else .error (.raised (.invalidEscape text)) := by
  have hbound : pos + 4 - (pos + 1) = 3 := by omega
  have hall : (body.drop (pos + 2)).take (body.length - (pos + 2)) = body.drop (pos + 2) :=
    List.take_of_length_le (Nat.le_of_eq List.length_drop)
  rw [escapeAt, hc]
  simp only [found, hplain, behindAt_eq, hbound, hall]

/-- An escape is found where it stands, and its end is where the rest of the body begins. -/
theorem escapeAt_eq (he : Escape e code rest) (h : body.drop pos = '\\' :: (e ++ rest)) :
    escapeAt text body pos = .ok (code, pos + 1 + e.length) := by
  have hdrop := (getElem?_of_drop h).2
  have hend : ∀ (mark : Char) (digits : List Char),
      pos + 2 + digits.length = pos + 1 + (mark :: digits).length := fun mark digits => by
    rw [List.length_cons]
    omega
  cases he with
  | simple hc =>
    rw [escapeAt, (getElem?_of_drop hdrop).1]
    simp only [found, simpleEscape?_eq_some_iff.mpr hc]
    rfl
  | octal ne le all longest =>
    cases e with
    | nil => exact absurd rfl ne
    | cons d digits =>
      have hd := all d List.mem_cons_self
      rw [escapeAt_of_mark (getElem?_of_drop hdrop).1 (simpleEscape?_of_isOctalDigit hd), if_pos hd,
        hdrop, takeWhile_take_append_of_stop le all longest]
      exact numberAt_eq hdrop ne fun d hd => isDigitOf_eight (all d hd)
  | @hexadecimal digits rest ne all longest =>
    obtain ⟨hx, hdigits⟩ := getElem?_of_drop hdrop
    replace hdigits : body.drop (pos + 2) = digits ++ rest := hdigits
    rw [escapeAt_of_mark hx rfl, if_neg (by decide), if_pos rfl, hdigits,
      takeWhile_append_of_stop all longest, ← hend]
    exact numberAt_eq hdigits ne fun d hd => isDigitOf_sixteen (all d hd)
  | @universal u digits rest length all =>
    obtain ⟨hu, hdigits⟩ := getElem?_of_drop hdrop
    replace hdigits : body.drop (pos + 2) = digits ++ rest := hdigits
    have hnumber := numberAt_eq hdigits (by rintro rfl; simp at length)
      fun d hd => isDigitOf_sixteen (all d hd)
    rcases length with ⟨rfl, hlength⟩ | ⟨rfl, hlength⟩
    · rw [escapeAt_of_mark hu rfl, if_neg (by decide), if_neg (by decide), if_pos rfl, ← hlength, ← hend]
      exact hnumber
    · rw [escapeAt_of_mark hu rfl, if_neg (by decide), if_neg (by decide), if_neg (by decide), if_pos rfl,
        ← hlength, ← hend]
      exact hnumber

theorem codesAt_escape (h : body[pos]? = some '\\') :
    codesAt text body pos =
      match escapeAt text body pos with
      | .error stop => .error stop
      | .ok (code, next) => (codesAt text body next).map (code :: ·) := by
  rw [codesAt, if_pos (List.getElem?_eq_some_iff.mp h).1, h]
  simp only [found, if_true]
  split
  · rename_i heq
    rw [heq]
  · rename_i heq
    rw [heq]

theorem codesAt_plain {c : Char} (h : body[pos]? = some c) (hc : c ≠ '\\') :
    codesAt text body pos = (codesAt text body (pos + 1)).map (c.toNat :: ·) := by
  rw [codesAt, if_pos (List.getElem?_eq_some_iff.mp h).1, h]
  simp only [found]
  rw [if_neg hc]

/-- The codes of a body are found by positions. -/
theorem codesAt_eq (h : Codes (body.drop pos) codes) : codesAt text body pos = .ok codes := by
  generalize hdrop : body.drop pos = cs at h
  induction h generalizing pos with
  | nil =>
    have hle : body.length ≤ pos := List.drop_eq_nil_iff.mp hdrop
    rw [codesAt, if_neg (Nat.not_lt_of_le hle)]
  | plain hc _ ih =>
    obtain ⟨hfound, hrest⟩ := getElem?_of_drop hdrop
    rw [codesAt_plain hfound hc, ih hrest]
    rfl
  | escape he _ ih =>
    obtain ⟨hfound, hrest⟩ := getElem?_of_drop hdrop
    rw [codesAt_escape hfound, escapeAt_eq he hdrop]
    simp only
    rw [ih]
    · rfl
    · rw [← List.drop_drop, hrest, List.drop_left]

theorem decodeAt_eq {encoding : List Char} (htext : text.toList = encoding ++ '\'' :: body ++ ['\''])
    (hmark : ∀ c ∈ encoding, c ≠ '\'') (h : Codes body codes) : decodeAt text = .ok codes := by
  have hindex : text.toList.idxOf? '\'' = some encoding.length := by
    rw [htext, List.append_assoc]
    exact idxOf?_append_cons hmark
  have hbody : (text.toList.drop (encoding.length + 1)).dropLast = body := by
    rw [htext, List.append_assoc, List.drop_append]
    simp
  rw [decodeAt, hindex]
  simp only [found]
  rw [hbody]
  exact codesAt_eq h

end Constant

/-! ## What codes denote -/

/-- What the codes of a character constant denote: with an encoding the first code as a signed number
of 64 bits, alone a signed byte, and otherwise the bytes of the last four, as a signed number of 32
bits. -/
inductive Denotes : List Char → List Nat → Value → Prop
  | encoded {encoding : List Char} {code : Nat} {codes : List Nat} (ne : encoding ≠ []) :
    Denotes encoding (code :: codes) ⟨(code : Int).bmod (2 ^ 64), false⟩
  | single {code : Nat} : Denotes [] [code] ⟨(code : Int).bmod (2 ^ 8), false⟩
  | packed {codes : List Nat} (two : 2 ≤ codes.length) :
    Denotes [] codes
      ⟨((Nat.ofDigits (2 ^ 8) ((codes.reverse.take 4).map (· % 2 ^ 8)) : Nat) : Int).bmod (2 ^ 32),
        false⟩

namespace Constant

/-- Four bytes are all that is packed. -/
theorem packed_eq_take (codes : List Nat) :
    packed codes =
      ((Nat.ofDigits (2 ^ 8) ((codes.reverse.take 4).map (· % 2 ^ 8)) : Nat) : Int).bmod (2 ^ 32) := by
  have hbytes : ∀ byte ∈ codes.reverse.map (· % 2 ^ 8), byte < 2 ^ 8 := by
    intro byte hbyte
    obtain ⟨code, -, rfl⟩ := List.mem_map.mp hbyte
    exact Nat.mod_lt _ (by decide)
  have htake := Nat.ofDigits_mod_pow_eq_ofDigits_take 4 (Nat.two_pow_pos 8) _ hbytes
  rw [← Nat.pow_mul] at htake
  rw [packed_eq, List.map_take, ← htake, Int.natCast_mod]
  exact (Int.emod_bmod _ _).symm

theorem exists_denotes {text : String} {encoding body : List Char} {codes : List Nat}
    (htext : text.toList = encoding ++ '\'' :: body ++ ['\'']) (hmark : ∀ c ∈ encoding, c ≠ '\'')
    (h : Codes body codes) (ne : codes ≠ []) :
    ∃ v, Denotes encoding codes v ∧ character text = .ok v := by
  have hword : Value.modulus = 2 ^ 64 := by norm_num [Value.modulus]
  have hbyte : 256 = 2 ^ 8 := by norm_num
  rw [character_eq_of_codes encoding htext hmark (codes?_of_codes h)]
  simp only [Value.wrap, hword, hbyte, packed_eq_take]
  cases encoding with
  | cons c encoding =>
    cases codes with
    | nil => exact absurd rfl ne
    | cons code codes =>
      refine ⟨_, .encoded (List.cons_ne_nil _ _), ?_⟩
      simp only [List.isEmpty_cons, Bool.not_false, if_true, Bool.false_eq_true, if_false,
        List.headD_cons]
  | nil =>
    rcases codes with _ | ⟨code, _ | ⟨second, codes⟩⟩
    · exact absurd rfl ne
    · exact ⟨_, .single, rfl⟩
    · exact ⟨_, .packed (Nat.le_add_left 2 _), rfl⟩

end Constant

/-! ## What the lexer counts -/

namespace Reader

variable {r after : Reader} {quote c : Char} {encoding cs text : List Char} {kind : Kind} {count n : Nat}

/-- The lexer and the decoder cut the body of a character constant into the same characters and
escapes. -/
theorem codes_of_readBody (h : (r.readBody '\'' count).1 = .ok (text, n)) :
    text <+: r.ahead ∧ ∃ body codes, text = body ++ ['\''] ∧ Codes body codes ∧
      n = count + codes.length := by
  generalize hmark : '\'' = quote at h ⊢
  fun_induction readBody quote count r generalizing text n with
  | case1 => cases h
  | case2 count r hend hquote =>
    obtain ⟨rfl, rfl⟩ := Prod.mk.inj (Except.ok.inj h)
    rw [fst_advance_cons (ahead_of_peek hquote), ahead_of_peek hquote]
    exact ⟨⟨_, rfl⟩, [], [], rfl, .nil, rfl⟩
  | case3 => cases h
  | case4 count r hend hquote hslash escape after hescape rest =>
    rename_i ih
    obtain ⟨⟨text, n⟩, hrest, heq⟩ := map_eq_ok_iff.mp h
    cases heq
    obtain ⟨⟨tail, htail⟩, body, codes, rfl, hcodes, rfl⟩ := ih hrest
    have hread := r.advance.2.readEscape_reads
    rw [hescape] at hread
    obtain ⟨m, hlength, htake⟩ := hread.of_ok
    obtain ⟨e, more, code, hahead, rfl, he⟩ := escape_of_escapeLength hlength
    -- what was read as the escape is the escape, and the rest of the body is ahead of the reader behind
    obtain ⟨rfl, rfl⟩ := Prod.mk.inj htake
    rw [ahead_skip, hahead, List.drop_left] at htail
    rw [hahead, List.take_left, fst_advance_cons (ahead_of_peek hslash), ahead_of_peek hslash, hahead]
    subst htail
    rw [List.append_assoc] at he
    refine ⟨⟨tail, by simp⟩, '\\' :: (e ++ body), code :: codes, by simp,
      .escape he.of_append hcodes, ?_⟩
    rw [List.length_cons, Nat.add_right_comm, Nat.add_assoc]
  | case5 count r hend hquote hslash rest =>
    rename_i ih
    obtain ⟨c, hc, -, hahead⟩ := goes_on hend
    obtain ⟨⟨text, n⟩, hrest, heq⟩ := map_eq_ok_iff.mp h
    cases heq
    obtain ⟨⟨tail, htail⟩, body, codes, rfl, hcodes, rfl⟩ := ih hrest
    have hplain : c ≠ '\\' := fun heq => hslash (hc.trans (congrArg some heq))
    rw [fst_advance_cons hahead, hahead, ← htail]
    refine ⟨⟨tail, rfl⟩, c :: body, c.toNat :: codes, rfl, .plain hplain hcodes, ?_⟩
    rw [List.length_cons, Nat.add_right_comm, Nat.add_assoc]

/-- A character token is read behind its encoding, if it has one, and its opening mark, and something
was counted in it. -/
theorem readBody_of_readLiteral (h : r.readLiteral quote encoding = (.ok (.character, text), after)) :
    ∃ body count, (r.advance.2.readBody quote 0).1 = .ok (body, count) ∧ count ≠ 0 ∧ quote ≠ '"' ∧
      text = encoding ++ r.advance.1 ++ body := by
  rw [readLiteral] at h
  split at h
  · cases h
  rename_i body count after' hbody
  split at h
  · cases h
  rename_i hquote
  split at h
  · cases h
  rename_i hcount
  cases h
  exact ⟨body, count, congrArg Prod.fst hbody, hcount, hquote, rfl⟩

/-- Where the lexer begins to count in the character token at a reader, and what it has counted. -/
structure Counts (r : Reader) (encoding body : List Char) (count : Nat) : Prop where
  encoded : encoding = [] ∨ encoding ∈ encodingPrefixes
  read : ((r.skip encoding.length).advance.2.readBody '\'' 0).1 = .ok (body ++ ['\''], count)
  pos : 1 ≤ count

theorem counts_of_readLiteral (hencoded : encoding = [] ∨ encoding ∈ encodingPrefixes)
    (hquote : (r.skip encoding.length).peek 0 = some quote ∧ IsQuote quote)
    (h : ((r.skip encoding.length).readLiteral quote encoding).1 = .ok (.character, text)) :
    ∃ body count, r.Counts encoding body count ∧ text = encoding ++ '\'' :: body ++ ['\''] := by
  obtain ⟨hpeek, hmark⟩ := hquote
  obtain ⟨read, count, hread, hcount, hstring, rfl⟩ := readBody_of_readLiteral (Prod.ext h rfl)
  obtain rfl : quote = '\'' := hmark.resolve_left hstring
  obtain ⟨-, body, codes, rfl, -, -⟩ := codes_of_readBody hread
  refine ⟨body, count, ⟨hencoded, hread, Nat.pos_of_ne_zero hcount⟩, ?_⟩
  rw [fst_advance_cons (ahead_of_peek hpeek)]
  simp

theorem counts_of_readName (h : r.readName.1 = .ok (.character, text)) :
    ∃ encoding body count, r.Counts encoding body count ∧
      text = encoding ++ '\'' :: body ++ ['\''] := by
  have hname : r.readWhile isNameChar =
      ((r.readWhile isNameChar).1, r.skip (r.readWhile isNameChar).1.length) := by
    rw [readWhile_eq, take, List.length_take_of_le (spanLength_le isNameChar r.ahead)]
  rw [readName, hname] at h
  simp only at h
  split at h
  · rename_i quote hpeek
    split at h
    · rename_i hencoded
      exact ⟨_, counts_of_readLiteral (.inr hencoded.1) ⟨hpeek, hencoded.2⟩ h⟩
    · cases h
  · cases h

theorem kind_readPunctuator (r : Reader) : r.readPunctuator.1.1 ≠ .character := by
  intro hkind
  rw [readPunctuator] at hkind
  split at hkind
  · cases hkind
  · cases hkind

/-- A character token comes from a literal, whose parts were counted. -/
theorem counts_of_scanToken (h : r.peek 0 = some c) (hscan : (r.scanToken c).1 = .ok (.character, text)) :
    ∃ encoding body count, r.Counts encoding body count ∧
      text = encoding ++ '\'' :: body ++ ['\''] := by
  unfold scanToken at hscan
  split at hscan
  · cases hscan
  split at hscan
  · cases hscan
  split at hscan
  · cases hscan
  split at hscan
  · obtain ⟨_, -, heq⟩ := map_eq_ok_iff.mp hscan
    cases heq
  split at hscan
  · cases hscan
  split at hscan
  · exact counts_of_readName hscan
  split at hscan
  · rename_i hquote
    have hmark : IsQuote c := by simpa [IsQuote] using hquote
    exact ⟨[], counts_of_readLiteral (.inl rfl) ⟨h, hmark⟩ hscan⟩
  · exact absurd (congrArg Prod.fst (Except.ok.inj hscan)) r.kind_readPunctuator

end Reader

/-! ## Character constants of a source -/

namespace Source

variable {s : Source} {lenient : Bool} {r : Reader}

/-- Whether a token was read of a source at a reader. -/
structure ReadsAt (s : Source) (r : Reader) (t : Token) : Prop where
  within : r.rest <:+ s.text.toList
  location : t.location = s.locate r.place
  read : ∃ c, r.peek 0 = some c ∧ (r.scanToken c).1 = .ok (t.kind, t.text.toList)

theorem exists_readsAt_of_mem_read {t : Scanned} (hr : r.rest <:+ s.text.toList)
    (ht : t ∈ (s.read lenient r).1) (hlayout : t.token.isLayout = false) :
    ∃ start, s.ReadsAt start t.token := by
  fun_induction read s lenient r with
  | case1 r start hpeek => cases ht
  | case2 r start c hpeek kind text after hscan location rest ih =>
    have hstart : start.rest <:+ s.text.toList := r.skipSplices_suffix.trans hr
    rcases List.mem_cons.mp ht with rfl | ht
    · refine ⟨start, hstart, rfl, c, hpeek, ?_⟩
      rw [hscan, String.toList_ofList]
    · have hafter := Reader.suffix_scanToken hpeek List.mem_cons_self
      rw [hscan] at hafter
      exact ih (hafter.trans hstart) ht
  | case3 r start c hpeek fault after hscan hlenient rest ih =>
    rcases List.mem_cons.mp ht with rfl | ht
    · cases hlayout
    · have hafter := Reader.suffix_scanToken hpeek (List.mem_cons_of_mem _ List.mem_cons_self)
      rw [hscan] at hafter
      exact ih ((hafter.trans r.skipSplices_suffix).trans hr) ht
  | case4 r start c hpeek fault after hscan hlenient => cases ht

/-- The character constants of a source are decoded as they are counted. Where the lexer yields one,
whether it goes on after faults or not, the decoder finds a character at every position that it looks
at and digits wherever it needs some, its codes are as many as the characters and escapes that the lexer
counted, one at least, and the value of the constant is what they denote. -/
theorem decodes_character {t : Scanned} (ht : t ∈ (s.tokenize lenient).1)
    (hkind : t.token.kind = .character) :
    ∃ (r : Reader) (encoding body : List Char) (codes : List Nat) (v : Value),
      s.ReadsAt r t.token ∧ r.Counts encoding body codes.length ∧
      t.token.text.toList = encoding ++ '\'' :: body ++ ['\''] ∧
      Constant.decodeAt t.token.text = .ok codes ∧
      Denotes encoding codes v ∧ ∀ setting, (evaluate setting [t.token]).result = .ok v := by
  have hlayout : t.token.isLayout = false := by rw [Token.isLayout, hkind]; rfl
  obtain ⟨r, hreads⟩ := exists_readsAt_of_mem_read (List.suffix_refl _) ht hlayout
  obtain ⟨c, hpeek, hscan⟩ := hreads.read
  rw [hkind] at hscan
  obtain ⟨encoding, body, count, hcounts, htext⟩ := Reader.counts_of_scanToken hpeek hscan
  obtain ⟨-, body', codes, hbody, hcodes, hcount⟩ := Reader.codes_of_readBody hcounts.read
  obtain rfl := List.append_cancel_right hbody
  rw [Nat.zero_add] at hcount
  subst hcount
  have hmark : ∀ c ∈ encoding, c ≠ '\'' := by
    have hprefixes : ∀ e ∈ encodingPrefixes, ∀ c ∈ e, c ≠ '\'' := by
      simp [encodingPrefixes]
    rcases hcounts.encoded with rfl | hmem
    · exact List.forall_mem_nil _
    · exact hprefixes encoding hmem
  obtain ⟨v, hdenotes, hvalue⟩ :=
    Constant.exists_denotes htext hmark hcodes (List.ne_nil_of_length_pos hcounts.pos)
  refine ⟨r, encoding, body, codes, v, hreads, hcounts, htext, Constant.decodeAt_eq htext hmark hcodes,
    hdenotes, fun setting => ?_⟩
  rw [evaluate_character setting hkind, hvalue]
  rfl

/-- Five characters and escapes are counted in `'a\101bc\n'`, and five codes are decoded. -/
theorem decodes_character_five :
    let s : Source := { text := "'a\\101bc\\n'" }
    let t : Scanned := ⟨⟨.character, s.text, s.locate ⟨1, 1⟩, ∅, false⟩, none⟩
    t ∈ (s.tokenize true).1 ∧ ∃ r encoding body, s.ReadsAt r t.token ∧ r.Counts encoding body 5 ∧
      Constant.decodeAt s.text = .ok [97, 65, 98, 99, 10] := by
  intro s t
  have hscan : s.scan = [t] := by cbv
  have ht : t ∈ (s.tokenize true).1 := by
    rw [tokenize_eq, outcome_lenient, hscan]
    exact List.mem_cons_self
  obtain ⟨r, encoding, body, codes, v, hreads, hcounts, -, hcodes, -⟩ := decodes_character ht rfl
  have hoctal : Escape ['1', '0', '1'] 65 ['b', 'c', '\\', 'n'] := by
    have hnumber : positional 8 ['1', '0', '1'] = 65 := by cbv
    rw [← hnumber]
    exact .octal (List.cons_ne_nil _ _) (by decide) (List.all_eq_true.mp rfl) (.inl rfl)
  have hbody : Codes ['a', '\\', '1', '0', '1', 'b', 'c', '\\', 'n'] [97, 65, 98, 99, 10] :=
    .plain (by decide) (.escape hoctal (.plain (by decide) (.plain (by decide)
      (.escape (.simple (c := 'n') (by decide)) .nil))))
  have htext : s.text.toList =
      [] ++ '\'' :: ['a', '\\', '1', '0', '1', 'b', 'c', '\\', 'n'] ++ ['\''] := by decide
  have hdecoded : Constant.decodeAt s.text = .ok [97, 65, 98, 99, 10] :=
    Constant.decodeAt_eq htext (List.forall_mem_nil _) hbody
  obtain rfl := Except.ok.inj (hcodes.symm.trans hdecoded)
  exact ⟨ht, r, encoding, body, hreads, hcounts, hdecoded⟩

end Source

end CPreprocessor
