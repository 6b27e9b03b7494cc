import CPreprocessor.Proofs.Condition.Acceptance
import CPreprocessor.Proofs.Condition.Skipped
import CPreprocessor.Proofs.Macro.Reachable
import CPreprocessor.Proofs.Render.RoundTrip

/-!
# Conditions of one constant

The value of a condition that is one constant is what the constant is converted to
(`evaluate_number`, `evaluate_character`). For the numbers of a source these are the integer
constants, and each of them is spelled as one number (`evaluate_number_iff`).
-/

namespace CPreprocessor

open Lexeme

/-! ## Numbers of a source -/

namespace Token

variable {t : Token}

theorem Lexed.chomp_number (h : t.Lexed) (hkind : t.kind = .number) :
    Constant.chomp t.text.toList = t.text.toList := by
  have hline : '\n' ∉ t.text.toList := by
    cases h with
    | spelled h =>
      cases h with
      | space h => rcases h with ⟨h, -⟩ | ⟨h, -⟩ <;> cases hkind.symm.trans h
      | alone h hlayout =>
        obtain ⟨c, cs, hu, hfirst⟩ := h.first_eq hlayout
        rw [hu]
        exact not_mem_newline_of_first hfirst hlayout
      | string h => cases hkind.symm.trans h
      | point _ h =>
        rw [h]
        decide
    | comment h => cases hkind.symm.trans h
    | placemarker h => cases hkind.symm.trans h
  rw [Constant.chomp, if_neg fun hlast => hline (List.mem_of_getLast? hlast)]

end Token

theorem isNameChar_of_isHexDigit {c : Char} (h : isHexDigit c = true) : isNameChar c = true := by
  simp only [isHexDigit, Bool.or_eq_true, Bool.and_eq_true, decide_eq_true_eq] at h
  simp only [isNameChar, isNameStart, Char.isAlpha, Char.isUpper, Char.isLower, Bool.or_eq_true,
    Bool.and_eq_true, decide_eq_true_eq]
  have hf : ('f' : Char) ≤ 'z' := by decide
  have hF : ('F' : Char) ≤ 'Z' := by decide
  rcases h with (hdigit | ⟨ha, hle⟩) | ⟨hA, hle⟩
  · exact .inr hdigit
  · exact .inl (.inl (.inl (.inr ⟨ha, Char.le_trans hle hf⟩)))
  · exact .inl (.inl (.inl (.inl ⟨hA, Char.le_trans hle hF⟩)))

/-- A numeral begins with a digit and goes on with digits and letters. -/
theorem Numeral.nameChars {digits : List Char} {n : Nat} (h : Numeral digits n) :
    ∃ c cs, digits = c :: cs ∧ c.isDigit = true ∧ ∀ d ∈ cs, isNameChar d = true := by
  have hdigit : ∀ d : Char, d.isDigit = true → isNameChar d = true := fun d hd => by
    rw [isNameChar, hd, Bool.or_true]
  cases h with
  | hexadecimal mark _ all =>
    refine ⟨'0', _, rfl, rfl, List.forall_mem_cons.mpr ⟨?_, fun d hd =>
      isNameChar_of_isHexDigit (all d hd)⟩⟩
    rcases mark with rfl | rfl <;> rfl
  | binary mark _ all =>
    refine ⟨'0', _, rfl, rfl, List.forall_mem_cons.mpr ⟨?_, fun d hd => ?_⟩⟩
    · rcases mark with rfl | rfl <;> rfl
    · rcases all d hd with rfl | rfl <;> rfl
  | octal _ all =>
    exact ⟨'0', _, rfl, rfl, fun d hd => hdigit d (Constant.isDigit_of_isOctalDigit (all d hd))⟩
  | zero => exact ⟨'0', [], rfl, rfl, List.forall_mem_nil _⟩
  | decimal _ all =>
    obtain ⟨hd, hall⟩ := List.forall_mem_cons.mp all
    exact ⟨_, _, rfl, hd, fun c hc => hdigit c (hall c hc)⟩

theorem Suffix.nameChars {suffix : List Char} {unsigned : Bool} (h : Suffix suffix unsigned) :
    ∀ c ∈ suffix, isNameChar c = true := by
  intro c hc
  rcases Constant.isSuffixChar_iff.mp (Constant.isSuffixChar_of_suffix h c hc) with
    rfl | rfl | rfl | rfl <;> decide

/-- Digits and a suffix are read as one number, whatever number they denote. -/
theorem exists_tokens_of_numeral {digits suffix : List Char} {n : Nat} {unsigned : Bool}
    (hdigits : Numeral digits n) (hsuffix : Suffix suffix unsigned) :
    ∃ t, Source.tokens { text := String.ofList (digits ++ suffix) } = .ok [t] ∧
      t.form = (.number, String.ofList (digits ++ suffix)) := by
  obtain ⟨c, cs, rfl, hc, hcs⟩ := hdigits.nameChars
  have hfirst : first c (cs ++ suffix) = .ok (.number, (cs ++ suffix).length) :=
    first_of_nameChars hc (List.forall_mem_append.mpr ⟨hcs, hsuffix.nameChars⟩)
  exact (Token.alone_of_first (t := ⟨.number, String.ofList (c :: cs ++ suffix), default, ∅, false⟩)
    String.toList_ofList hfirst).readsAlone rfl

/-- The numbers of a source are read exactly: one that is an integer constant has its value, a decimal
constant with too many digits cannot be converted, any other is a syntax error, and digits of any base and
length with a suffix are one number of a source. -/
theorem evaluate_number_iff :
    (∀ (s : Setting) (t : Token), t.IsScanned → t.kind = .number →
      (∀ v, (evaluate s [t]).result = .ok v ↔ IntegerConstant t.text.toList v) ∧
      (∀ count, (evaluate s [t]).result = .error ⟨.tooManyDigits count, t.location⟩ ↔
        LongDecimal t.text.toList count) ∧
      ((∀ v, ¬ IntegerConstant t.text.toList v) → (∀ count, ¬ LongDecimal t.text.toList count) →
        ∃ cause, (evaluate s [t]).result = .error ⟨cause, t.location⟩ ∧
          cause.category = .expressionSyntax)) ∧
    ∀ digits n suffix unsigned, Numeral digits n → Suffix suffix unsigned →
      ∃ t, Source.tokens { text := String.ofList (digits ++ suffix) } = .ok [t] ∧
        t.form = (.number, String.ofList (digits ++ suffix)) := by
  refine ⟨fun s t hscanned hkind => ?_, fun digits n suffix unsigned => exists_tokens_of_numeral⟩
  have hchomp := hscanned.lexed.chomp_number hkind
  have hread : ∀ v, Constant.integer t.text = .ok v ↔ IntegerConstant t.text.toList v := fun v => by
    rw [Constant.integer_eq_ok_iff, hchomp]
  have hlong : ∀ count, Constant.integer t.text = .error (.tooManyDigits count) ↔
      LongDecimal t.text.toList count := fun count => by
    rw [Constant.integer_eq_tooManyDigits_iff, hchomp]
  rw [evaluate_number s hkind]
  simp only [← hread, ← hlong]
  cases hinteger : Constant.integer t.text with
  | ok v =>
    refine ⟨fun w => ?_, fun count => iff_of_false nofun nofun, fun hnone => absurd rfl (hnone v)⟩
    rw [Except.mapError, Except.ok.injEq, Except.ok.injEq]
  | error cause =>
    refine ⟨fun w => iff_of_false nofun nofun, fun count => ?_, fun _ hnone => ⟨cause, rfl, ?_⟩⟩
    · simp [Except.mapError]
    · exact (Constant.category_of_integer hinteger).resolve_right fun ⟨count, hcause⟩ =>
        hnone count (by rw [hcause])

/-- The text `0x1Fu` is one number, and its value is the unsigned 31. -/
theorem evaluate_number_iff_hexadecimal :
    let t : Token := ⟨.number, "0x1Fu", ⟨"<input>", 1, 1⟩, ∅, false⟩
    t.IsScanned ∧ (evaluate {} [t]).result = .ok ⟨31, true⟩ ∧
      ∃ u, Source.tokens { text := String.ofList (['0', 'x', '1', 'F'] ++ ['u']) } = .ok [u] ∧
        u.form = (.number, String.ofList (['0', 'x', '1', 'F'] ++ ['u'])) := by
  intro t
  have htokens : Source.tokens { text := "0x1Fu" } = .ok [t] := by cbv
  have hscanned : t.IsScanned := .of_tokens htokens List.mem_cons_self
  have hnumber : positional 16 ['1', 'F'] = 31 := by cbv
  have hdigits : Numeral ['0', 'x', '1', 'F'] 31 := by
    rw [← hnumber]
    exact .hexadecimal (.inl rfl) (List.cons_ne_nil _ _) (List.all_eq_true.mp rfl)
  have hsuffix : Suffix ['u'] true := .before (.inl rfl) List.mem_cons_self
  obtain ⟨hread, hspelled⟩ := evaluate_number_iff
  refine ⟨hscanned, ((hread {} t hscanned rfl).1 _).mpr ?_, hspelled _ _ _ _ hdigits hsuffix⟩
  have htext : t.text.toList = ['0', 'x', '1', 'F'] ++ ['u'] := by decide
  rw [htext]
  exact .intro hdigits hsuffix (by decide)

end CPreprocessor
