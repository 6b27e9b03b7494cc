import CPreprocessor.Proofs.Condition.IntegerConstant
import CPreprocessor.Proofs.Except

/-!
# Character constants

`CharacterConstant` says which texts are character constants and what they denote, apart from how
they are read. Every character constant that is cut from a source is one
(`exists_characterConstant_of_mem_lexemes`), and `Constant.character` gives its value
(`Constant.character_eq_ok_iff`).
-/

namespace CPreprocessor

/-- The escapes of a backslash and one character, with their codes. -/
def simpleEscapes : List (Char × Nat) :=
  [('n', 10), ('t', 9), ('r', 13), ('a', 7), ('b', 8), ('f', 12), ('v', 11), ('\\', 92),
   ('\'', 39), ('"', 34), ('?', 63)]

/-- An escape after its backslash, its code, and the text that follows it. Octal escapes have up to
three digits and hexadecimal ones as many as there are. -/
inductive Escape : List Char → Nat → List Char → Prop
  | simple {c : Char} {code : Nat} {rest : List Char} (h : (c, code) ∈ simpleEscapes) :
    Escape [c] code rest
  | octal {digits rest : List Char} (ne : digits ≠ []) (le : digits.length ≤ 3)
    (all : ∀ d ∈ digits, Lexeme.isOctalDigit d = true)
    (longest : digits.length = 3 ∨ ∀ c ∈ rest.head?, Lexeme.isOctalDigit c = false) :
    Escape digits (positional 8 digits) rest
  | hexadecimal {digits rest : List Char} (ne : digits ≠ [])
    (all : ∀ d ∈ digits, Lexeme.isHexDigit d = true)
    (longest : ∀ c ∈ rest.head?, Lexeme.isHexDigit c = false) :
    Escape ('x' :: digits) (positional 16 digits) rest
  | universal {u : Char} {digits rest : List Char}
    (length : u = 'u' ∧ digits.length = 4 ∨ u = 'U' ∧ digits.length = 8)
    (all : ∀ d ∈ digits, Lexeme.isHexDigit d = true) :
    Escape (u :: digits) (positional 16 digits) rest

/-- The codes of the characters and escapes in the body of a character constant. -/
inductive Codes : List Char → List Nat → Prop
  | nil : Codes [] []
  | plain {c : Char} {cs : List Char} {codes : List Nat} (h : c ≠ '\\') (rest : Codes cs codes) :
    Codes (c :: cs) (c.toNat :: codes)
  | escape {e cs : List Char} {code : Nat} {codes : List Nat} (h : Escape e code cs)
    (rest : Codes cs codes) : Codes ('\\' :: (e ++ cs)) (code :: codes)

/-- A text that is a character constant, and its value: the first code if it has an encoding, a
signed byte for a single character, and otherwise the lowest bytes of all packed into 32 bits. -/
inductive CharacterConstant : List Char → Value → Prop
  | encoded {encoding body : List Char} {code : Nat} {codes : List Nat}
    (mem : encoding ∈ Lexeme.encodingPrefixes) (h : Codes body (code :: codes)) :
    CharacterConstant (encoding ++ '\'' :: body ++ ['\'']) (.wrap code false)
  | single {body : List Char} {code : Nat} (h : Codes body [code]) :
    CharacterConstant ('\'' :: body ++ ['\'']) ⟨(code : Int).bmod (2 ^ 8), false⟩
  | packed {body : List Char} {codes : List Nat} (h : Codes body codes) (two : 2 ≤ codes.length) :
    CharacterConstant ('\'' :: body ++ ['\''])
      ⟨((Nat.ofDigits (2 ^ 8) (codes.reverse.map (· % 2 ^ 8)) : Nat) : Int).bmod (2 ^ 32), false⟩

/-! ## Decoding -/

namespace Constant

theorem simpleEscape?_eq_some_iff {c : Char} {code : Nat} :
    simpleEscape? c = some code ↔ (c, code) ∈ simpleEscapes := by
  constructor
  · intro h
    unfold simpleEscape? at h
    repeat' split at h
    all_goals simp_all [simpleEscapes]
    rename_i hc
    subst h
    rcases hc with ((rfl | rfl) | rfl) | rfl <;> decide
  · intro h
    simp only [simpleEscapes, List.mem_cons, List.not_mem_nil, or_false, Prod.mk.injEq] at h
    rcases h with ⟨rfl, rfl⟩ | ⟨rfl, rfl⟩ | ⟨rfl, rfl⟩ | ⟨rfl, rfl⟩ | ⟨rfl, rfl⟩ | ⟨rfl, rfl⟩ |
      ⟨rfl, rfl⟩ | ⟨rfl, rfl⟩ | ⟨rfl, rfl⟩ | ⟨rfl, rfl⟩ | ⟨rfl, rfl⟩ <;> rfl

theorem isOctalDigit_of_mem_simpleEscapes :
    ∀ x ∈ simpleEscapes, Lexeme.isOctalDigit x.1 = false := by decide

theorem simpleEscape?_of_isOctalDigit {c : Char} (h : Lexeme.isOctalDigit c = true) :
    simpleEscape? c = none := by
  cases hc : simpleEscape? c with
  | none => rfl
  | some code =>
    have := isOctalDigit_of_mem_simpleEscapes _ (simpleEscape?_eq_some_iff.mp hc)
    simp_all

theorem hexCode?_of_digits {digits : List Char} (ne : digits ≠ [])
    (all : ∀ d ∈ digits, Lexeme.isHexDigit d = true) :
    hexCode? digits = some (positional 16 digits) := by
  have hall : digits.all Lexeme.isHexDigit = true := List.all_eq_true.mpr all
  simp [hexCode?, ne, hall, number_eq_positional]

theorem escape?_of_escape {e rest : List Char} {code : Nat} (h : Escape e code rest) :
    escape? (e ++ rest) = some (code, e.length) := by
  cases h with
  | simple h => simp [escape?, simpleEscape?_eq_some_iff.mpr h]
  | octal ne le all longest =>
    cases e with
    | nil => exact absurd rfl ne
    | cons d digits =>
      have hd := all d (List.mem_cons_self ..)
      have htake : ((digits ++ rest).take 2).takeWhile Lexeme.isOctalDigit = digits :=
        takeWhile_take_append_of_stop (Nat.le_of_succ_le_succ le)
          (fun c hc => all c (List.mem_cons_of_mem _ hc)) (by simpa using longest)
      simp [escape?, simpleEscape?_of_isOctalDigit hd, hd, htake, number_eq_positional]
  | @hexadecimal digits _ ne all longest =>
    have hx : simpleEscape? 'x' = none := rfl
    have hoctal : Lexeme.isOctalDigit 'x' = false := rfl
    simp [escape?, hx, hoctal, takeWhile_append_of_stop all longest, hexCode?_of_digits ne all]
  | @universal u digits _ length all =>
    rcases length with ⟨rfl, hlen⟩ | ⟨rfl, hlen⟩
    · have hu : simpleEscape? 'u' = none := rfl
      have hoctal : Lexeme.isOctalDigit 'u' = false := rfl
      have htake : (digits ++ rest).take 4 = digits := by rw [← hlen, List.take_left]
      have hne : digits ≠ [] := by intro h; simp [h] at hlen
      simp [escape?, hu, hoctal, htake, hexCode?_of_digits hne all, hlen]
    · have hu : simpleEscape? 'U' = none := rfl
      have hoctal : Lexeme.isOctalDigit 'U' = false := rfl
      have htake : (digits ++ rest).take 8 = digits := by rw [← hlen, List.take_left]
      have hne : digits ≠ [] := by intro h; simp [h] at hlen
      simp [escape?, hu, hoctal, htake, hexCode?_of_digits hne all, hlen]

theorem codes?_of_codes {body : List Char} {codes : List Nat} (h : Codes body codes) :
    codes? body = some codes := by
  induction h with
  | nil => rw [codes?]
  | plain h _ ih => rw [codes?, if_neg h, ih]; rfl
  | escape h _ ih =>
    rw [codes?, if_pos rfl, escape?_of_escape h]
    simp [ih]

end Constant

/-! ## Character constants of a source -/

theorem Escape.of_append {e rest tail : List Char} {code : Nat} (h : Escape e code (rest ++ tail)) :
    Escape e code rest := by
  have hhead : ∀ c ∈ rest.head?, c ∈ (rest ++ tail).head? := by
    intro c hc
    cases rest with
    | nil => cases hc
    | cons d ds => exact hc
  cases h with
  | simple h => exact .simple h
  | octal ne le all longest =>
    exact .octal ne le all (longest.imp_right fun h c hc => h c (hhead c hc))
  | hexadecimal ne all longest => exact .hexadecimal ne all fun c hc => longest c (hhead c hc)
  | universal length all => exact .universal length all

namespace Lexeme

theorem exists_mem_simpleEscapes {c : Char} (h : isSimpleEscape c = true) :
    ∃ code, (c, code) ∈ simpleEscapes := by
  simp only [isSimpleEscape, Bool.or_eq_true, beq_iff_eq] at h
  simp only [simpleEscapes, List.mem_cons, Prod.mk.injEq, List.not_mem_nil, or_false]
  rcases h with (((((((((rfl | rfl) | rfl) | rfl) | rfl) | rfl) | rfl) | rfl) | rfl) | rfl) | rfl <;>
    simp

theorem take_of_spanLength {p : Char → Bool} {cs : List Char} {width : Nat}
    (h : spanLength p (cs.take width) = width) :
    (cs.take width).length = width ∧ ∀ c ∈ cs.take width, p c = true := by
  have hstart := List.takeWhile_prefix p (l := cs.take width)
  have hle := List.length_take_le width cs
  have heq : (cs.take width).takeWhile p = cs.take width :=
    hstart.eq_of_length_le (by rw [spanLength] at h; omega)
  rw [spanLength, heq] at h
  exact ⟨h, fun c hc => List.all_eq_true.mp (heq ▸ List.all_takeWhile ..) c hc⟩

/-- The digits of an octal escape end at the third one or before something else. -/
theorem octal_stops (cs : List Char) :
    ((cs.take 2).takeWhile isOctalDigit).length = 2 ∨
      ∀ c ∈ (cs.drop ((cs.take 2).takeWhile isOctalDigit).length).head?,
        isOctalDigit c = false := by
  have hsplit : cs = (cs.take 2).takeWhile isOctalDigit ++
      ((cs.take 2).dropWhile isOctalDigit ++ cs.drop 2) := by
    rw [← List.append_assoc, List.takeWhile_append_dropWhile, List.take_append_drop]
  have hdrop : cs.drop ((cs.take 2).takeWhile isOctalDigit).length =
      (cs.take 2).dropWhile isOctalDigit ++ cs.drop 2 := by
    conv => lhs; arg 2; rw [hsplit]
    exact List.drop_left
  cases hstop : (cs.take 2).dropWhile isOctalDigit with
  | nil =>
    have hall : (cs.take 2).takeWhile isOctalDigit = cs.take 2 := by
      conv => rhs; rw [← List.takeWhile_append_dropWhile (p := isOctalDigit) (l := cs.take 2)]
      rw [hstop, List.append_nil]
    rw [hall]
    by_cases hlen : 2 ≤ cs.length
    · exact .inl (by simp [hlen])
    · refine .inr fun c hc => ?_
      have : cs.drop (cs.take 2).length = [] := List.drop_eq_nil_of_le (by simp; omega)
      rw [this] at hc
      cases hc
  | cons d ds =>
    refine .inr fun c hc => ?_
    rw [hdrop, hstop] at hc
    cases hc
    have hd : d ∈ ((cs.take 2).dropWhile isOctalDigit).head? := by rw [hstop]; rfl
    exact head?_dropWhile_eq_false hd

theorem escape_of_universalLength {u : Char} {width n : Nat} {fault : LexFault} {cs : List Char}
    (hu : u = 'u' ∧ width = 4 ∨ u = 'U' ∧ width = 8)
    (h : (universalLength width fault cs).map (· + 1) = .ok n) :
    ∃ e rest code, u :: cs = e ++ rest ∧ e.length = n ∧ Escape e code rest := by
  rw [universalLength] at h
  split at h
  · rename_i hspan
    cases h
    obtain ⟨hlen, hall⟩ := take_of_spanLength hspan
    refine ⟨u :: cs.take width, cs.drop width, _, ?_, by simp [hlen], .universal ?_ hall⟩
    · rw [List.cons_append, List.take_append_drop]
    · rcases hu with ⟨rfl, rfl⟩ | ⟨rfl, rfl⟩
      · exact .inl ⟨rfl, hlen⟩
      · exact .inr ⟨rfl, hlen⟩
  · cases h

/-- What is measured as an escape is one. -/
theorem escape_of_escapeLength {cs : List Char} {n : Nat} (h : escapeLength cs = .ok n) :
    ∃ e rest code, cs = e ++ rest ∧ e.length = n ∧ Escape e code rest := by
  cases cs with
  | nil => cases h
  | cons c cs =>
    rw [escapeLength] at h
    split at h
    · rename_i hc
      cases h
      obtain ⟨code, hcode⟩ := exists_mem_simpleEscapes hc
      exact ⟨[c], cs, code, rfl, rfl, .simple hcode⟩
    split at h
    · rename_i hc
      cases h
      have hstop := octal_stops cs
      have hstart := List.takeWhile_prefix isOctalDigit (l := cs.take 2)
      refine ⟨c :: (cs.take 2).takeWhile isOctalDigit, cs.drop _, _, ?_, rfl,
        .octal (by simp) ?_ ?_ (by simpa using hstop)⟩
      · rw [List.cons_append, List.prefix_iff_eq_append.mp (hstart.trans (List.take_prefix ..))]
      · have := hstart.length_le
        simp at this ⊢
        omega
      · intro d hd
        rcases List.mem_cons.mp hd with rfl | hd
        · exact hc
        · exact List.all_eq_true.mp (List.all_takeWhile ..) d hd
    split at h
    · rename_i hx
      subst hx
      split at h
      · cases h
      rename_i hne
      cases h
      refine ⟨'x' :: cs.takeWhile isHexDigit, cs.dropWhile isHexDigit, _, ?_, rfl,
        .hexadecimal ?_ ?_ fun d hd => head?_dropWhile_eq_false hd⟩
      · rw [List.cons_append, List.takeWhile_append_dropWhile]
      · exact fun h => hne (by simp [spanLength, h])
      · exact fun d hd => List.all_eq_true.mp (List.all_takeWhile ..) d hd
    split at h
    · rename_i hu
      exact escape_of_universalLength (.inl ⟨hu, rfl⟩) h
    split at h
    · rename_i hu
      exact escape_of_universalLength (.inr ⟨hu, rfl⟩) h
    · cases h

/-- What is measured as the rest of a literal is a body with its codes and the closing mark. -/
theorem codes_of_bodyLength {cs : List Char} {n : Nat} (h : bodyLength '\'' cs = .ok n) :
    ∃ body rest codes, cs = body ++ '\'' :: rest ∧ n = body.length + 1 ∧ Codes body codes := by
  generalize hq : '\'' = quote at h ⊢
  fun_induction bodyLength quote cs generalizing n with
  | case1 => cases h
  | case2 => cases h
  | case3 =>
    cases h
    exact ⟨[], _, [], rfl, rfl, .nil⟩
  | case4 => cases h
  | case5 cs length hescape hnewline hquote ih =>
    cases hbody : bodyLength quote (cs.drop length) with
    | error fault => rw [hbody] at h; cases h
    | ok m =>
      rw [hbody] at h
      cases h
      obtain ⟨body, rest, codes, hcs, rfl, hcodes⟩ := ih hbody
      obtain ⟨e, after, code, rfl, rfl, he⟩ := escape_of_escapeLength hescape
      rw [List.drop_left] at hcs
      subst hcs
      exact ⟨'\\' :: (e ++ body), rest, _, by simp, by simp; omega, .escape he.of_append hcodes⟩
  | case6 c cs hnewline hquote hbackslash ih =>
    cases hbody : bodyLength quote cs with
    | error fault => rw [hbody] at h; cases h
    | ok m =>
      rw [hbody] at h
      cases h
      obtain ⟨body, rest, codes, rfl, rfl, hcodes⟩ := ih hbody
      exact ⟨c :: body, rest, _, rfl, rfl, .plain hbackslash hcodes⟩

theorem Codes.ne_nil {body : List Char} {codes : List Nat} (h : Codes body codes)
    (ne : body ≠ []) : codes ≠ [] := by
  cases h with
  | nil => exact absurd rfl ne
  | plain => simp
  | escape => simp

/-- What is measured as the rest of a character literal is a body, not empty, and the mark. -/
theorem codes_of_literalLength {cs : List Char} {n : Nat}
    (h : literalLength '\'' cs = .ok (.character, n)) :
    ∃ body codes, cs.take n = body ++ ['\''] ∧ Codes body codes ∧ codes ≠ [] := by
  rw [literalLength] at h
  split at h
  · cases h
  rename_i m hbody
  rw [if_neg (by decide)] at h
  split at h
  · cases h
  rename_i hne
  cases h
  obtain ⟨body, rest, codes, rfl, rfl, hcodes⟩ := codes_of_bodyLength hbody
  refine ⟨body, codes, ?_, hcodes, Codes.ne_nil hcodes ?_⟩
  · simp [List.take_append, List.take_of_length_le]
  · rintro rfl
    exact hne rfl

theorem kind_of_stringLength {cs : List Char} {kind : Kind} {n : Nat}
    (h : literalLength '"' cs = .ok (kind, n)) : kind = .string := by
  rw [literalLength] at h
  split at h
  · cases h
  · cases h
    rfl

theorem exists_characterConstant_of_codes {body : List Char} {codes : List Nat}
    (h : Codes body codes) (ne : codes ≠ []) :
    ∃ v, CharacterConstant ('\'' :: body ++ ['\'']) v := by
  match codes, ne with
  | [_], _ => exact ⟨_, .single h⟩
  | _ :: _ :: _, _ => exact ⟨_, .packed h (by simp)⟩

theorem exists_characterConstant_of_nameLength {c : Char} {cs : List Char} {n : Nat}
    (h : nameLength c cs = .ok (.character, n)) : ∃ v, CharacterConstant (c :: cs.take n) v := by
  rw [nameLength] at h
  split at h
  · rename_i hmem
    have hstart := List.contains_iff_mem.mp hmem
    split at h
    · rename_i rest hdrop
      obtain ⟨⟨kind, m⟩, hlit, heq⟩ := map_eq_ok_iff.mp h
      cases heq
      cases kind_of_stringLength hlit
    · rename_i rest hdrop
      obtain ⟨⟨kind, m⟩, hlit, heq⟩ := map_eq_ok_iff.mp h
      cases heq
      obtain ⟨body, codes, htake, hcodes, hne⟩ := codes_of_literalLength hlit
      have hcs : cs.take (spanLength isNameChar cs + 1 + m) =
          cs.take (spanLength isNameChar cs) ++ '\'' :: body ++ ['\''] := by
        rw [Nat.add_assoc, List.take_add, hdrop, Nat.add_comm 1 m, List.take_succ_cons, htake]
        simp
      rw [hcs]
      match codes, hne with
      | _ :: _, _ => exact ⟨_, .encoded hstart hcodes⟩
    · cases h
  · cases h

/-- What is measured as a character literal is a character constant. -/
theorem exists_characterConstant_of_first {c : Char} {cs : List Char} {n : Nat}
    (h : first c cs = .ok (.character, n)) : ∃ v, CharacterConstant (c :: cs.take n) v := by
  unfold first at h
  split at h
  · cases h
  split at h
  · cases h
  split at h
  · cases h
  split at h
  · obtain ⟨m, -, heq⟩ := map_eq_ok_iff.mp h
    cases heq
  split at h
  · cases h
  split at h
  · exact exists_characterConstant_of_nameLength h
  split at h
  · rename_i hquote
    simp only [Bool.or_eq_true, decide_eq_true_eq] at hquote
    rcases hquote with rfl | rfl
    · cases kind_of_stringLength h
    · obtain ⟨body, codes, htake, hcodes, hne⟩ := codes_of_literalLength h
      rw [htake]
      exact exists_characterConstant_of_codes hcodes hne
  · rw [punctuatorLength] at h
    split at h <;> cases h

end Lexeme

theorem exists_characterConstant_of_mem_lexemes {source text : List Char}
    (h : .token .character text ∈ lexemes source) : ∃ v, CharacterConstant text v := by
  fun_induction lexemes source with
  | case1 => cases h
  | case2 c cs kind n hfirst ih =>
    rcases List.mem_cons.mp h with heq | h
    · cases heq
      exact Lexeme.exists_characterConstant_of_first hfirst
    · exact ih h
  | case3 c cs cause hfirst n ih =>
    rcases List.mem_cons.mp h with heq | h
    · cases heq
    · exact ih h

namespace Constant

theorem packed_eq (codes : List Nat) :
    packed codes =
      ((Nat.ofDigits (2 ^ 8) (codes.reverse.map (· % 2 ^ 8)) : Nat) : Int).bmod (2 ^ 32) := by
  have hbyte : (2 : Nat) ^ 8 = 256 := by norm_num
  have hword : (2 : Nat) ^ 32 = 4294967296 := by norm_num
  have h := foldl_eq_ofDigits 256 (· % 256) codes 0
  rw [Nat.mul_zero, Nat.zero_add] at h
  unfold packed
  simp only [hbyte, hword, Nat.mul_comm _ 256]
  exact congrArg (fun n : Nat => (n : Int).bmod 4294967296) h

theorem character_eq_of_codes {text : String} (encoding : List Char) {body : List Char}
    {codes : List Nat}
    (htext : text.toList = encoding ++ '\'' :: body ++ ['\'']) (hmark : ∀ c ∈ encoding, c ≠ '\'') :
    codes? body = some codes →
      character text =
        if !encoding.isEmpty then .ok (.wrap (codes.headD 0) false)
        else
          match codes with
          | [code] => .ok ⟨(code : Int).bmod 256, false⟩
          | codes => .ok ⟨packed codes, false⟩ := by
  intro hcodes
  have htake : text.toList.takeWhile (· ≠ '\'') = encoding := by
    rw [htext, List.append_assoc]
    exact takeWhile_append_of_stop (fun c hc => by simpa using hmark c hc) (by simp)
  have hbody : (text.toList.drop (encoding.length + 1)).dropLast = body := by
    rw [htext, List.append_assoc, List.drop_append]
    simp
  rcases codes with _ | ⟨code, _ | ⟨second, codes⟩⟩
  all_goals simp only [character, htake, hbody, hcodes]

theorem character_of_characterConstant {text : String} {v : Value}
    (h : CharacterConstant text.toList v) : character text = .ok v := by
  generalize htext : text.toList = cs at h
  cases h with
  | @encoded encoding body code codes mem h =>
    have hmark : ∀ e ∈ Lexeme.encodingPrefixes, e ≠ [] ∧ ∀ c ∈ e, c ≠ '\'' := by
      simp [Lexeme.encodingPrefixes]
    rw [character_eq_of_codes encoding htext (hmark _ mem).2 (codes?_of_codes h)]
    simp [(hmark _ mem).1]
  | single h => rw [character_eq_of_codes [] htext (by simp) (codes?_of_codes h)]; rfl
  | @packed body codes h two =>
    rw [character_eq_of_codes [] htext (by simp) (codes?_of_codes h), ← packed_eq]
    match codes, two with
    | _ :: _ :: _, _ => rfl

/-- The value of a character constant is read. -/
theorem character_eq_ok_iff {text : String} {v : Value}
    (h : ∃ w, CharacterConstant text.toList w) :
    character text = .ok v ↔ CharacterConstant text.toList v := by
  obtain ⟨w, hw⟩ := h
  refine ⟨fun heq => ?_, character_of_characterConstant⟩
  rw [character_of_characterConstant hw] at heq
  cases heq
  exact hw

end Constant

end CPreprocessor
