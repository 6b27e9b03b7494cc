import CPreprocessor.Condition.Constant
import CPreprocessor.Proofs.Condition.CharacterConstant
import CPreprocessor.Proofs.Except
import CPreprocessor.Proofs.Expansion.Lexed

/-!
# Checked conversions of constants

`Constant.integerChecked` and `Constant.characterChecked` convert constants as the evaluator does, but
stop where there are no digits for a base, no character after a backslash, no mark around a character
or no first character. No number makes them stop (`Constant.integerChecked_eq`), and no character
constant that is spelled as the lexer spells them (`Constant.characterChecked_eq`).
-/

namespace CPreprocessor

variable {ε : Type} {c : Char} {digits : List Char}

namespace Constant

/-! ## Digits -/

/-- Whether `c` is a digit in a base up to sixteen. -/
def isDigitOf (base : Nat) (c : Char) : Bool := Lexeme.isHexDigit c && digitValue c < base

/-- The number that digits denote in a base, where there must be digits and nothing else. -/
def numberChecked (base : Nat) (digits : List Char) : Except (Stop ε) Nat :=
  if digits.isEmpty || !digits.all (isDigitOf base) then .error .outOfRange
  else .ok (number base digits)

theorem numberChecked_eq {base : Nat} (hne : digits ≠ [])
    (hdigits : ∀ d ∈ digits, isDigitOf base d = true) :
    (numberChecked base digits : Except (Stop ε) Nat) = .ok (number base digits) := by
  have hempty : digits.isEmpty = false := by rwa [← Bool.not_eq_true, List.isEmpty_iff]
  rw [numberChecked, hempty, List.all_eq_true.mpr hdigits]
  rfl

theorem isDigitOf_of_isDigit (h : c.isDigit = true) {base : Nat} (hbase : c.toNat - 48 < base) :
    isDigitOf base c = true := by
  rw [isDigitOf, Lexeme.isHexDigit, h, digitValue, if_pos h, decide_eq_true hbase]
  rfl

theorem toNat_le_of_isDigit (h : c.isDigit = true) : c.toNat ≤ 57 := by
  simp only [Char.isDigit, Bool.and_eq_true, decide_eq_true_eq] at h
  exact h.2

theorem isDigitOf_ten (h : c.isDigit = true) : isDigitOf 10 c = true := by
  have hle := toNat_le_of_isDigit h
  exact isDigitOf_of_isDigit h (by omega)

theorem isDigitOf_eight (h : Lexeme.isOctalDigit c = true) : isDigitOf 8 c = true := by
  refine isDigitOf_of_isDigit (isDigit_of_isOctalDigit h) ?_
  simp only [Lexeme.isOctalDigit, Bool.and_eq_true, decide_eq_true_eq] at h
  have hle : c.toNat ≤ 55 := h.2
  omega

theorem isDigitOf_sixteen (h : Lexeme.isHexDigit c = true) : isDigitOf 16 c = true := by
  by_cases hdigit : c.isDigit = true
  · have hle := toNat_le_of_isDigit hdigit
    exact isDigitOf_of_isDigit hdigit (by omega)
  have hlt : digitValue c < 16 := by
    rw [digitValue, if_neg hdigit]
    rw [Bool.not_eq_true] at hdigit
    have hbounds : ('a' : Char).val.toNat = 97 ∧ ('f' : Char).val.toNat = 102 ∧
        ('A' : Char).val.toNat = 65 ∧ ('F' : Char).val.toNat = 70 := ⟨rfl, rfl, rfl, rfl⟩
    simp only [Lexeme.isHexDigit, hdigit, Bool.false_or, Bool.or_eq_true, Bool.and_eq_true,
      decide_eq_true_eq, Char.le_def, UInt32.le_iff_toNat_le] at h ⊢
    have hval : c.toNat = c.val.toNat := rfl
    split <;> omega
  rw [isDigitOf, h, decide_eq_true hlt]
  rfl

/-! ## Integer constants -/

/-- The number that an integer constant denotes, spelled as `text`. -/
def IntegerForm.numberChecked (text : String) : IntegerForm → Except (Stop ConditionFault) Nat
  | hexadecimal digits => Constant.numberChecked 16 digits
  | binary digits => Constant.numberChecked 2 digits
  | plain ['0'] => Constant.numberChecked 10 ['0']
  | plain ('0' :: digits) =>
    if digits.any fun c => c == '8' || c == '9' then .error (.raised (.invalidOctal text))
    else Constant.numberChecked 8 ('0' :: digits)
  | plain digits =>
    if Text.digitLimit < digits.length then .error (.raised (.tooManyDigits digits.length))
    else Constant.numberChecked 10 digits

/-- The value of a number. -/
def integerChecked (text : String) : Except (Stop ConditionFault) Value :=
  match integerForm? (chomp text.toList) with
  | none =>
    if isFloating text.toList then .error (.raised .floatingConstant)
    else .error (.raised (.invalidInteger text))
  | some (digits, suffix) =>
    if !suffixes.contains (String.ofList suffix) then
      .error (.raised (.invalidSuffix (String.ofList suffix)))
    else
      match digits.numberChecked text with
      | .error stop => .error stop
      | .ok n =>
        if Value.modulus ≤ n then .error (.raised (.integerTooLarge text))
        else .ok (.wrap n (suffix.any (fun c => c == 'u' || c == 'U') || Value.signedBound ≤ n))

/-- Decimal digits are octal ones, but for two of them. -/
theorem isOctalDigit_eq (h : c.isDigit = true) :
    Lexeme.isOctalDigit c = !(c == '8' || c == '9') := by
  simp only [Char.isDigit, Bool.and_eq_true, decide_eq_true_eq] at h
  have hbounds : 48 ≤ c.toNat ∧ c.toNat ≤ 57 := h
  have h8 : c = '8' ↔ c.toNat = 56 := Char.toNat_inj.symm
  have h9 : c = '9' ↔ c.toNat = 57 := Char.toNat_inj.symm
  have hoctal : ('0' ≤ c ∧ c ≤ '7') ↔ 48 ≤ c.toNat ∧ c.toNat ≤ 55 := Iff.rfl
  rw [Bool.eq_iff_iff]
  simp only [Lexeme.isOctalDigit, Bool.and_eq_true, decide_eq_true_eq, Bool.not_eq_true',
    Bool.or_eq_false_iff, beq_eq_false_iff_ne, ne_eq, h8, h9, hoctal]
  omega

theorem any_eq_not_all_isOctalDigit (h : ∀ d ∈ digits, d.isDigit = true) :
    (digits.any fun c => c == '8' || c == '9') = !digits.all Lexeme.isOctalDigit := by
  induction digits with
  | nil => rfl
  | cons d digits ih =>
    obtain ⟨hd, hdigits⟩ := List.forall_mem_cons.mp h
    rw [List.any_cons, List.all_cons, isOctalDigit_eq hd, ih hdigits, Bool.not_and, Bool.not_not]

/-- The digits of an integer constant are digits of its base, or decimal ones. -/
def IntegerForm.Digits : IntegerForm → Prop
  | hexadecimal digits => digits ≠ [] ∧ ∀ d ∈ digits, Lexeme.isHexDigit d = true
  | binary digits => digits ≠ [] ∧ ∀ d ∈ digits, (d == '0' || d == '1') = true
  | plain digits => digits ≠ [] ∧ ∀ d ∈ digits, d.isDigit = true

theorem digits_of_integerForm? {text suffix : List Char} {form : IntegerForm}
    (h : integerForm? text = some (form, suffix)) : form.Digits := by
  unfold integerForm? at h
  split at h
  all_goals
    obtain ⟨⟨digits, rest⟩, hsplit, heq⟩ := Option.map_eq_some_iff.mp h
    cases heq
  · obtain ⟨-, hne, hdigits, -⟩ := (split_eq_some_iff isHexDigit_of_isSuffixChar).mp hsplit
    exact ⟨hne, hdigits⟩
  · obtain ⟨-, hne, hdigits, -⟩ := (split_eq_some_iff isHexDigit_of_isSuffixChar).mp hsplit
    exact ⟨hne, hdigits⟩
  · obtain ⟨-, hne, hdigits, -⟩ := (split_eq_some_iff isBinary_of_isSuffixChar).mp hsplit
    exact ⟨hne, hdigits⟩
  · obtain ⟨-, hne, hdigits, -⟩ := (split_eq_some_iff isBinary_of_isSuffixChar).mp hsplit
    exact ⟨hne, hdigits⟩
  · obtain ⟨-, hne, hdigits, -⟩ := (split_eq_some_iff isDigit_of_isSuffixChar).mp hsplit
    exact ⟨hne, hdigits⟩

theorem IntegerForm.numberChecked_eq {form : IntegerForm} (h : form.Digits) (text : String) :
    form.numberChecked text =
      match form.number? with
      | none => .error (.raised (.invalidOctal text))
      | some n =>
        if Text.digitLimit < form.decimals then .error (.raised (.tooManyDigits form.decimals))
        else .ok n := by
  cases form with
  | hexadecimal digits => exact Constant.numberChecked_eq h.1 fun d hd => isDigitOf_sixteen (h.2 d hd)
  | binary digits =>
    refine Constant.numberChecked_eq h.1 fun d hd => ?_
    have hd := h.2 d hd
    rw [Bool.or_eq_true, beq_iff_eq, beq_iff_eq] at hd
    rcases hd with rfl | rfl <;> decide
  | plain digits =>
    obtain ⟨hne, hdigits⟩ := h
    unfold IntegerForm.numberChecked
    split
    · rename_i heq
      cases heq
    · rename_i heq
      cases heq
    · rename_i heq
      cases heq
      rfl
    · rename_i rest hrest heq
      cases heq
      have hrestDigits := (List.forall_mem_cons.mp hdigits).2
      rw [IntegerForm.number?, any_eq_not_all_isOctalDigit hrestDigits]
      · cases hall : rest.all Lexeme.isOctalDigit with
        | false => rfl
        | true =>
          refine Constant.numberChecked_eq hne (List.forall_mem_cons.mpr ⟨by decide, fun d hd => ?_⟩)
          exact isDigitOf_eight (List.all_eq_true.mp hall d hd)
      · exact hrest
    · rename_i hzero hrest heq
      cases heq
      rw [IntegerForm.number?, IntegerForm.decimals,
        Constant.numberChecked_eq hne fun d hd => isDigitOf_ten (hdigits d hd)]
      · exact hrest
      · exact hzero
      · exact hrest

/-- The digits of a number are digits of the base that it is converted from. -/
theorem integerChecked_eq (text : String) : integerChecked text = raising (integer text) := by
  unfold integerChecked integer
  cases hform : integerForm? (chomp text.toList) with
  | none =>
    dsimp only
    split <;> rfl
  | some found =>
    obtain ⟨form, suffix⟩ := found
    dsimp only
    split
    · rfl
    rw [IntegerForm.numberChecked_eq (digits_of_integerForm? hform)]
    cases form.number? with
    | none => rfl
    | some n =>
      dsimp only
      by_cases hlong : Text.digitLimit < form.decimals
      · rw [if_pos hlong, if_pos hlong]
        rfl
      rw [if_neg hlong, if_neg hlong]
      dsimp only
      split <;> rfl

/-! ## Character constants -/

/-- The code of an escape after its backslash in the constant `text`, and the length of the escape
without it. -/
def escapeChecked (text : String) : List Char → Except (Stop ConditionFault) (Nat × Nat)
  | [] => .error .outOfRange
  | c :: cs =>
    match simpleEscape? c with
    | some code => .ok (code, 1)
    | none =>
      if Lexeme.isOctalDigit c then
        let digits := c :: (cs.take 2).takeWhile Lexeme.isOctalDigit
        (numberChecked 8 digits).map fun code => (code, digits.length)
      else if c = 'x' then
        let digits := cs.takeWhile Lexeme.isHexDigit
        (numberChecked 16 digits).map fun code => (code, digits.length + 1)
      else if c = 'u' then (numberChecked 16 (cs.take 4)).map fun code => (code, 5)
      else if c = 'U' then (numberChecked 16 (cs.take 8)).map fun code => (code, 9)
      else .error (.raised (.invalidEscape text))

/-- The codes of the characters and escapes in the body of the constant `text`. -/
def codesChecked (text : String) : List Char → Except (Stop ConditionFault) (List Nat)
  | [] => .ok []
  | c :: cs =>
    if c = '\\' then
      match escapeChecked text cs with
      | .error stop => .error stop
      | .ok (code, length) => (codesChecked text (cs.drop length)).map (code :: ·)
    else (codesChecked text cs).map (c.toNat :: ·)
termination_by cs => cs.length
decreasing_by all_goals simp only [List.length_cons, List.length_drop]; omega

/-- The value of a character constant. -/
def characterChecked (text : String) : Except (Stop ConditionFault) Value :=
  match found (text.toList.idxOf? '\'') with
  | .error stop => .error stop
  | .ok mark =>
    match codesChecked text (text.toList.drop (mark + 1)).dropLast with
    | .error stop => .error stop
    | .ok codes =>
      if 0 < mark then (found codes.head?).map fun (code : Nat) => .wrap code false
      else
        match codes with
        | [code] => .ok ⟨(code : Int).bmod 256, false⟩
        | codes => .ok ⟨packed codes, false⟩

theorem numberChecked_of_hexCode? {code : Nat} (h : hexCode? digits = some code) :
    (numberChecked 16 digits : Except (Stop ε) Nat) = .ok code := by
  rw [hexCode?] at h
  split at h
  · cases h
  · rename_i hcond
    cases h
    simp only [Bool.or_eq_true, List.isEmpty_iff, Bool.not_eq_true', not_or, Bool.not_eq_false,
      List.all_eq_true] at hcond
    exact numberChecked_eq hcond.1 fun d hd => isDigitOf_sixteen (hcond.2 d hd)

theorem escapeChecked_of_escape? {text : String} {cs : List Char} {escape : Nat × Nat}
    (h : escape? cs = some escape) : escapeChecked text cs = .ok escape := by
  have hhex : ∀ {digits : List Char} {length : Nat},
      (hexCode? digits).map (fun code => (code, length)) = some escape →
        (numberChecked 16 digits).map (fun code => (code, length)) =
          (.ok escape : Except (Stop ConditionFault) (Nat × Nat)) := by
    intro digits length h
    obtain ⟨code, hcode, rfl⟩ := Option.map_eq_some_iff.mp h
    rw [numberChecked_of_hexCode? hcode]
    rfl
  cases cs with
  | nil => cases h
  | cons c cs =>
    rw [escape?] at h
    rw [escapeChecked]
    cases hsimple : simpleEscape? c with
    | some code =>
      rw [hsimple] at h
      cases h
      rfl
    | none =>
      rw [hsimple] at h
      dsimp only at h ⊢
      by_cases hoctal : Lexeme.isOctalDigit c = true
      · rw [if_pos hoctal] at h ⊢
        cases h
        rw [numberChecked_eq (List.cons_ne_nil _ _)]
        · rfl
        · intro d hd
          refine isDigitOf_eight ?_
          rcases List.mem_cons.mp hd with rfl | hd
          · exact hoctal
          · exact List.all_eq_true.mp (List.all_takeWhile ..) d hd
      rw [if_neg hoctal] at h ⊢
      by_cases hx : c = 'x'
      · rw [if_pos hx] at h ⊢
        exact hhex h
      rw [if_neg hx] at h ⊢
      by_cases hu : c = 'u'
      · rw [if_pos hu] at h ⊢
        exact hhex h
      rw [if_neg hu] at h ⊢
      by_cases hU : c = 'U'
      · rw [if_pos hU] at h ⊢
        exact hhex h
      rw [if_neg hU] at h
      cases h

theorem codesChecked_of_codes {text : String} {body : List Char} {codes : List Nat}
    (h : Codes body codes) : codesChecked text body = .ok codes := by
  induction h with
  | nil => rw [codesChecked]
  | plain h _ ih =>
    rw [codesChecked, if_neg h, ih]
    rfl
  | escape h _ ih =>
    rw [codesChecked, if_pos rfl, escapeChecked_of_escape? (escape?_of_escape h)]
    dsimp only
    rw [List.drop_left, ih]
    rfl

theorem idxOf?_append_cons {mark : Char} {before after : List Char} (h : ∀ c ∈ before, c ≠ mark) :
    (before ++ mark :: after).idxOf? mark = some before.length := by
  induction before with
  | nil => rw [List.nil_append, List.idxOf?_cons, beq_self_eq_true, if_pos rfl, List.length_nil]
  | cons c before ih =>
    obtain ⟨hc, hbefore⟩ := List.forall_mem_cons.mp h
    rw [List.cons_append, List.idxOf?_cons, beq_false_of_ne hc, if_neg Bool.false_ne_true,
      ih hbefore]
    rfl

theorem characterChecked_eq_of_codes {text : String} (encoding : List Char) {body : List Char}
    {codes : List Nat}
    (htext : text.toList = encoding ++ '\'' :: body ++ ['\'']) (hmark : ∀ c ∈ encoding, c ≠ '\'')
    (hcodes : Codes body codes) :
    characterChecked text =
      if 0 < encoding.length then (found codes.head?).map fun (code : Nat) => .wrap code false
      else
        match codes with
        | [code] => .ok ⟨(code : Int).bmod 256, false⟩
        | codes => .ok ⟨packed codes, false⟩ := by
  have hindex : text.toList.idxOf? '\'' = some encoding.length := by
    rw [htext, List.append_assoc]
    exact idxOf?_append_cons hmark
  have hbody : (text.toList.drop (encoding.length + 1)).dropLast = body := by
    rw [htext, List.append_assoc, List.drop_append]
    simp
  rw [characterChecked, hindex]
  dsimp only [found]
  rw [hbody, codesChecked_of_codes hcodes]

theorem characterChecked_of_characterConstant {text : String} {v : Value}
    (h : CharacterConstant text.toList v) : characterChecked text = .ok v := by
  generalize htext : text.toList = cs at h
  cases h with
  | @encoded encoding body code codes mem h =>
    have hmark : ∀ e ∈ Lexeme.encodingPrefixes, e ≠ [] ∧ ∀ c ∈ e, c ≠ '\'' := by
      simp [Lexeme.encodingPrefixes]
    obtain ⟨hne, hmark⟩ := hmark _ mem
    rw [characterChecked_eq_of_codes encoding htext hmark h, if_pos (List.length_pos_iff.mpr hne)]
    rfl
  | single h =>
    rw [characterChecked_eq_of_codes [] htext (List.forall_mem_nil _) h]
    rfl
  | @packed body codes h two =>
    rw [characterChecked_eq_of_codes [] htext (List.forall_mem_nil _) h, ← packed_eq]
    obtain _ | ⟨first, _ | ⟨second, rest⟩⟩ := codes
    · exact absurd two (Nat.not_succ_le_zero 1)
    · exact absurd two (Nat.lt_irrefl 1)
    · rfl

end Constant

/-! ## Conditions -/

variable {t : Token}

/-- A character token that is spelled as one is a character constant. -/
theorem Token.Lexed.exists_characterConstant (h : t.Lexed) (hkind : t.kind = .character) :
    ∃ v, CharacterConstant t.text.toList v := by
  cases h with
  | spelled h =>
    cases h with
    | space h =>
      rcases h with ⟨h, -⟩ | ⟨h, -⟩
      all_goals
        rw [hkind] at h
        cases h
    | alone h hlayout =>
      obtain ⟨c, cs, htext, hfirst⟩ := h.first_eq hlayout
      rw [hkind] at hfirst
      have hconstant := Lexeme.exists_characterConstant_of_first hfirst
      rwa [List.take_length, ← htext] at hconstant
    | string h =>
      rw [hkind] at h
      cases h
    | point h =>
      rw [hkind] at h
      cases h
  | comment h =>
    rw [hkind] at h
    cases h
  | placemarker h =>
    rw [hkind] at h
    cases h

/-- A character constant that is spelled as the lexer spells it has all that its value is made of. -/
theorem Constant.characterChecked_eq (h : t.Lexed) (hkind : t.kind = .character) :
    characterChecked t.text = raising (character t.text) := by
  obtain ⟨v, hv⟩ := h.exists_characterConstant hkind
  rw [characterChecked_of_characterConstant hv, character_of_characterConstant hv]
  rfl

-- The lexer takes none of these for a character constant.
example : Constant.characterChecked "L''" = .error .outOfRange := by cbv

example : Constant.characterChecked "'\\x'" = .error .outOfRange := by cbv

end CPreprocessor
