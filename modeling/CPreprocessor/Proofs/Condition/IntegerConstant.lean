import Mathlib.Data.Nat.Digits.Lemmas
import CPreprocessor.Condition.Constant
import CPreprocessor.Proofs.Text.Span

/-!
# Integer constants

`IntegerConstant` says which texts are integer constants and what they denote, apart from how they
are read. `Constant.integer` reads exactly these (`Constant.integer_eq_ok_iff`); it does not mind
one newline at the end of the text. `LongDecimal` says for which texts it gives up the conversion
(`Constant.integer_eq_tooManyDigits_iff`).
-/

namespace CPreprocessor

/-- The number that digits denote in a base, the last digit counting one. -/
def positional (base : Nat) (digits : List Char) : Nat :=
  Nat.ofDigits base (digits.reverse.map Constant.digitValue)

/-- Digits with their base mark, and the number that they denote. -/
inductive Numeral : List Char → Nat → Prop
  | hexadecimal {x : Char} {digits : List Char} (mark : x = 'x' ∨ x = 'X') (ne : digits ≠ [])
    (all : ∀ d ∈ digits, Lexeme.isHexDigit d) : Numeral ('0' :: x :: digits) (positional 16 digits)
  | binary {b : Char} {digits : List Char} (mark : b = 'b' ∨ b = 'B') (ne : digits ≠ [])
    (all : ∀ d ∈ digits, d = '0' ∨ d = '1') : Numeral ('0' :: b :: digits) (positional 2 digits)
  | octal {digits : List Char} (ne : digits ≠ []) (all : ∀ d ∈ digits, Lexeme.isOctalDigit d) :
    Numeral ('0' :: digits) (positional 8 digits)
  | zero : Numeral ['0'] 0
  | decimal {d : Char} {digits : List Char} (head : d ≠ '0')
    (all : ∀ c ∈ d :: digits, c.isDigit) : Numeral (d :: digits) (positional 10 (d :: digits))

/-- The sizes that a suffix may give. -/
def sizeMarks : List (List Char) := [[], ['l'], ['L'], ['l', 'l'], ['L', 'L']]

/-- A suffix, and whether it asks for the unsigned type by a `u` before or after its size. -/
inductive Suffix : List Char → Bool → Prop
  | size {l : List Char} (hl : l ∈ sizeMarks) : Suffix l false
  | before {u : Char} {l : List Char} (hu : u = 'u' ∨ u = 'U') (hl : l ∈ sizeMarks) :
    Suffix (u :: l) true
  | after {u : Char} {l : List Char} (hu : u = 'u' ∨ u = 'U') (hl : l ∈ sizeMarks) :
    Suffix (l ++ [u]) true

/-- A text that is an integer constant, and its value: unsigned if the suffix says so or if no
signed value is that large. -/
inductive IntegerConstant : List Char → Value → Prop
  | intro {digits suffix : List Char} {n : Nat} {unsigned : Bool} (hdigits : Numeral digits n)
    (hsuffix : Suffix suffix unsigned) (fits : n < 2 ^ 64) :
    IntegerConstant (digits ++ suffix) ⟨n, unsigned || decide (2 ^ 63 ≤ n)⟩

/-- A decimal constant of more digits than are converted, and how many it has. -/
inductive LongDecimal : List Char → Nat → Prop
  | intro {d : Char} {digits suffix : List Char} {unsigned : Bool} (head : d ≠ '0')
    (all : ∀ c ∈ d :: digits, c.isDigit) (hsuffix : Suffix suffix unsigned)
    (long : Text.digitLimit < (d :: digits).length) :
    LongDecimal (d :: digits ++ suffix) (d :: digits).length

theorem LongDecimal.digitLimit_lt {text : List Char} {count : Nat} (h : LongDecimal text count) :
    Text.digitLimit < count := by
  cases h with
  | intro head all hsuffix long => exact long

theorem LongDecimal.ones {n : Nat} (h : Text.digitLimit < n) : LongDecimal (List.replicate n '1') n := by
  obtain _ | n := n
  · exact absurd h (Nat.not_lt_zero _)
  have hones : List.replicate (n + 1) '1' = '1' :: List.replicate n '1' ++ [] :=
    (List.append_nil _).symm
  have hlength : ('1' :: List.replicate n '1').length = n + 1 := by simp
  have hall : ∀ c ∈ '1' :: List.replicate n '1', c.isDigit = true := fun c hc => by
    rw [List.eq_of_mem_replicate (n := n + 1) hc]
    rfl
  rw [hones, ← hlength]
  exact .intro (by decide) hall (.size List.mem_cons_self) (hlength ▸ h)

namespace Constant

/-- Horner's rule. -/
theorem foldl_eq_ofDigits {α : Type} (base : Nat) (f : α → Nat) (xs : List α) (n : Nat) :
    xs.foldl (fun n x => base * n + f x) n =
      base ^ xs.length * n + Nat.ofDigits base (xs.reverse.map f) := by
  induction xs generalizing n with
  | nil => simp
  | cons x xs ih =>
    rw [List.foldl_cons, ih]
    simp only [List.reverse_cons, List.map_append, List.map_cons, List.map_nil,
      Nat.ofDigits_append, List.length_cons, Nat.ofDigits_singleton, List.length_map,
      List.length_reverse]
    ring

theorem number_eq_positional (base : Nat) (digits : List Char) :
    number base digits = positional base digits := by
  rw [number, foldl_eq_ofDigits, Nat.mul_zero, Nat.zero_add]
  rfl

theorem isSuffixChar_iff {c : Char} :
    isSuffixChar c = true ↔ c = 'u' ∨ c = 'U' ∨ c = 'l' ∨ c = 'L' := by
  simp [isSuffixChar, or_assoc]

/-- Digits are split from a suffix where the suffix begins. -/
theorem split_eq_some_iff {isDigit : Char → Bool}
    (hdigit : ∀ c, isSuffixChar c = true → isDigit c = false) {text digits suffix : List Char} :
    split isDigit text = some (digits, suffix) ↔
      text = digits ++ suffix ∧ digits ≠ [] ∧ (∀ d ∈ digits, isDigit d = true) ∧
        ∀ c ∈ suffix, isSuffixChar c = true := by
  constructor
  · intro h
    simp only [split] at h
    split at h
    · cases h
    rename_i hcond
    simp only [Bool.or_eq_true, List.isEmpty_iff, Bool.not_eq_true', not_or, Bool.not_eq_false,
      List.all_eq_true] at hcond
    cases h
    refine ⟨(List.takeWhile_append_dropWhile ..).symm, hcond.1, fun d hd => ?_, hcond.2⟩
    exact List.all_eq_true.mp (List.all_takeWhile ..) d hd
  · rintro ⟨rfl, hne, hdigits, hsuffix⟩
    have hstop : ∀ c ∈ suffix.head?, isDigit c = false := fun c hc =>
      hdigit c (hsuffix c (List.mem_of_mem_head? hc))
    have hall : suffix.all isSuffixChar = true := List.all_eq_true.mpr hsuffix
    simp [split, takeWhile_append_of_stop hdigits hstop, dropWhile_append_of_stop hdigits hstop,
      hne, hall]

theorem isHexDigit_of_isSuffixChar (c : Char) (h : isSuffixChar c = true) :
    Lexeme.isHexDigit c = false := by
  rcases isSuffixChar_iff.mp h with rfl | rfl | rfl | rfl <;> decide

theorem isDigit_of_isSuffixChar (c : Char) (h : isSuffixChar c = true) : c.isDigit = false := by
  rcases isSuffixChar_iff.mp h with rfl | rfl | rfl | rfl <;> decide

theorem isBinary_of_isSuffixChar (c : Char) (h : isSuffixChar c = true) :
    (c == '0' || c == '1') = false := by
  rcases isSuffixChar_iff.mp h with rfl | rfl | rfl | rfl <;> decide

/-! ## Digits -/

section
variable {text suffix : List Char} {form : IntegerForm} {n : Nat}

theorem numeral_of_hexadecimal {x : Char} (mark : x = 'x' ∨ x = 'X')
    (h : (split Lexeme.isHexDigit text).map (fun (digits, suffix) =>
      (IntegerForm.hexadecimal digits, suffix)) = some (form, suffix))
    (hn : form.number? = some n) :
    ∃ digits, '0' :: x :: text = digits ++ suffix ∧ Numeral digits n ∧
      ∀ c ∈ suffix, isSuffixChar c = true := by
  obtain ⟨⟨digits, suffix'⟩, hsplit, heq⟩ := Option.map_eq_some_iff.mp h
  cases heq
  obtain ⟨rfl, hne, hdigits, hsuffix⟩ := (split_eq_some_iff isHexDigit_of_isSuffixChar).mp hsplit
  simp only [IntegerForm.number?, Option.some.injEq, number_eq_positional] at hn
  subst hn
  exact ⟨'0' :: x :: digits, rfl, .hexadecimal mark hne hdigits, hsuffix⟩

theorem numeral_of_binary {b : Char} (mark : b = 'b' ∨ b = 'B')
    (h : (split (fun c => c == '0' || c == '1') text).map (fun (digits, suffix) =>
      (IntegerForm.binary digits, suffix)) = some (form, suffix))
    (hn : form.number? = some n) :
    ∃ digits, '0' :: b :: text = digits ++ suffix ∧ Numeral digits n ∧
      ∀ c ∈ suffix, isSuffixChar c = true := by
  obtain ⟨⟨digits, suffix'⟩, hsplit, heq⟩ := Option.map_eq_some_iff.mp h
  cases heq
  obtain ⟨rfl, hne, hdigits, hsuffix⟩ := (split_eq_some_iff isBinary_of_isSuffixChar).mp hsplit
  simp only [IntegerForm.number?, Option.some.injEq, number_eq_positional] at hn
  subst hn
  exact ⟨'0' :: b :: digits, rfl, .binary mark hne fun d hd => by simpa using hdigits d hd, hsuffix⟩

theorem numeral_of_plain
    (h : (split Char.isDigit text).map (fun (digits, suffix) =>
      (IntegerForm.plain digits, suffix)) = some (form, suffix))
    (hn : form.number? = some n) :
    ∃ digits, text = digits ++ suffix ∧ Numeral digits n ∧
      ∀ c ∈ suffix, isSuffixChar c = true := by
  obtain ⟨⟨digits, suffix'⟩, hsplit, heq⟩ := Option.map_eq_some_iff.mp h
  cases heq
  obtain ⟨rfl, hne, hdigits, hsuffix⟩ := (split_eq_some_iff isDigit_of_isSuffixChar).mp hsplit
  refine ⟨digits, rfl, ?_, hsuffix⟩
  unfold IntegerForm.number? at hn
  split at hn
  · simp_all
  · simp_all
  · rename_i heq
    cases heq
    cases hn
    exact .zero
  · rename_i rest hrest heq
    cases heq
    split at hn
    · rename_i hoctal
      simp only [Option.some.injEq, number_eq_positional] at hn
      subst hn
      exact .octal (by simpa using hrest) (by simpa using hoctal)
    · cases hn
  · rename_i hzero heq
    cases heq
    simp only [Option.some.injEq, number_eq_positional] at hn
    subst hn
    cases digits with
    | nil => exact absurd rfl hne
    | cons d digits => exact .decimal (fun hd => hzero digits (by rw [hd])) hdigits

theorem numeral_of_integerForm? (h : integerForm? text = some (form, suffix))
    (hn : form.number? = some n) :
    ∃ digits, text = digits ++ suffix ∧ Numeral digits n ∧ ∀ c ∈ suffix, isSuffixChar c = true := by
  unfold integerForm? at h
  split at h
  · exact numeral_of_hexadecimal (.inl rfl) h hn
  · exact numeral_of_hexadecimal (.inr rfl) h hn
  · exact numeral_of_binary (.inl rfl) h hn
  · exact numeral_of_binary (.inr rfl) h hn
  · exact numeral_of_plain h hn

/-- A text without a base mark is read with decimal digits. -/
theorem integerForm?_of_unmarked (h : ∀ c cs, text = '0' :: c :: cs →
      c ≠ 'x' ∧ c ≠ 'X' ∧ c ≠ 'b' ∧ c ≠ 'B') :
    integerForm? text = (split Char.isDigit text).map fun (digits, suffix) =>
      (.plain digits, suffix) := by
  unfold integerForm?
  split <;> simp_all

theorem integerForm?_of_digits {digits : List Char} (hne : digits ≠ [])
    (hall : ∀ d ∈ digits, d.isDigit = true) (hsuffix : ∀ c ∈ suffix, isSuffixChar c = true)
    (hzero : digits.head? = some '0' → (digits.tail ++ suffix).head?.all fun c =>
      c ≠ 'x' && c ≠ 'X' && c ≠ 'b' && c ≠ 'B') :
    integerForm? (digits ++ suffix) = some (.plain digits, suffix) := by
  have hsplit := (split_eq_some_iff isDigit_of_isSuffixChar).mpr ⟨rfl, hne, hall, hsuffix⟩
  rw [integerForm?_of_unmarked, hsplit]
  · rfl
  · intro c cs heq
    cases digits with
    | nil => exact absurd rfl hne
    | cons d digits =>
      simp only [List.cons_append, List.cons.injEq] at heq
      have := hzero (by simp [heq.1])
      simpa [heq.2, and_assoc] using this

theorem isDigit_of_isOctalDigit {d : Char} (h : Lexeme.isOctalDigit d = true) :
    d.isDigit = true := by
  simp only [Lexeme.isOctalDigit, Bool.and_eq_true, decide_eq_true_eq] at h
  simp only [Char.isDigit, Bool.and_eq_true, decide_eq_true_eq]
  exact ⟨h.1, Nat.le_trans h.2 (by decide)⟩

theorem IntegerForm.number?_plain {d : Char} {digits : List Char} (head : d ≠ '0') :
    (plain (d :: digits)).number? = some (positional 10 (d :: digits)) := by
  rw [number?, number_eq_positional]
  · exact fun h => head (by simp_all)
  · exact fun _ h => head (by simp_all)

theorem IntegerForm.decimals_plain {d : Char} {digits : List Char} (head : d ≠ '0') :
    (plain (d :: digits)).decimals = (d :: digits).length := by
  rw [decimals]
  exact fun _ h => head (by simp_all)

theorem digitValue_ne_zero {d : Char} (head : d ≠ '0') (hd : d.isDigit = true) :
    digitValue d ≠ 0 := by
  rw [digitValue, if_pos hd]
  simp only [Char.isDigit, Bool.and_eq_true, decide_eq_true_eq] at hd
  have hle : 48 ≤ d.toNat := hd.1
  have hne : d.toNat ≠ 48 := fun heq => head (Char.toNat_inj.mp heq)
  omega

/-- Digits with a base mark are read with the digits of that base, all others as decimal digits. -/
theorem integerForm?_of_numeral {digits : List Char} (h : Numeral digits n)
    (hsuffix : ∀ c ∈ suffix, isSuffixChar c = true) :
    ∃ form, integerForm? (digits ++ suffix) = some (form, suffix) ∧ form.number? = some n := by
  cases h with
  | @hexadecimal x digits mark ne all =>
    refine ⟨.hexadecimal digits, ?_, by simp [IntegerForm.number?, number_eq_positional]⟩
    have hsplit := (split_eq_some_iff isHexDigit_of_isSuffixChar).mpr ⟨rfl, ne, all, hsuffix⟩
    rcases mark with rfl | rfl <;> simp [integerForm?, hsplit]
  | @binary b digits mark ne all =>
    refine ⟨.binary digits, ?_, by simp [IntegerForm.number?, number_eq_positional]⟩
    have hsplit := (split_eq_some_iff isBinary_of_isSuffixChar).mpr
      ⟨rfl, ne, fun d hd => by simpa using all d hd, hsuffix⟩
    rcases mark with rfl | rfl <;> simp [integerForm?, hsplit]
  | @octal digits ne all =>
    refine ⟨.plain ('0' :: digits), integerForm?_of_digits (by simp) ?_ hsuffix fun _ => ?_, ?_⟩
    · intro d hd
      rcases List.mem_cons.mp hd with rfl | hd
      · decide
      · exact isDigit_of_isOctalDigit (all d hd)
    · cases digits with
      | nil => exact absurd rfl ne
      | cons d digits =>
        have hd := all d (List.mem_cons_self ..)
        have hmark : ∀ c, Lexeme.isOctalDigit c = false → d ≠ c := fun c hc heq => by
          rw [heq, hc] at hd
          cases hd
        simp [hmark 'x' (by decide), hmark 'X' (by decide), hmark 'b' (by decide),
          hmark 'B' (by decide)]
    · have hall : digits.all Lexeme.isOctalDigit = true := by simpa using all
      simp [IntegerForm.number?, hall, number_eq_positional]
  | zero =>
    refine ⟨.plain ['0'], integerForm?_of_digits (by simp) (by simp) hsuffix fun _ => ?_, rfl⟩
    cases suffix with
    | nil => rfl
    | cons c cs =>
      rcases isSuffixChar_iff.mp (hsuffix c (List.mem_cons_self ..)) with rfl | rfl | rfl | rfl <;>
        rfl
  | @decimal d digits head all =>
    refine ⟨.plain (d :: digits), integerForm?_of_digits (by simp) all hsuffix fun h => ?_,
      IntegerForm.number?_plain head⟩
    exact absurd (by simpa using h) head

/-! ## Decimal digits -/

/-- Only decimal digits are counted, and those of constants that are no zero. -/
theorem exists_plain_of_integerForm? (h : integerForm? text = some (form, suffix))
    (hpos : 0 < form.decimals) :
    ∃ d digits, form = .plain (d :: digits) ∧ text = d :: digits ++ suffix ∧ d ≠ '0' ∧
      ∀ c ∈ d :: digits, c.isDigit = true := by
  unfold integerForm? at h
  split at h
  all_goals
    obtain ⟨⟨digits, rest⟩, hsplit, heq⟩ := Option.map_eq_some_iff.mp h
    cases heq
  · cases hpos
  · cases hpos
  · cases hpos
  · cases hpos
  · obtain ⟨rfl, hne, hdigits, -⟩ := (split_eq_some_iff isDigit_of_isSuffixChar).mp hsplit
    cases digits with
    | nil => exact absurd rfl hne
    | cons d digits =>
      refine ⟨d, digits, rfl, rfl, ?_, hdigits⟩
      rintro rfl
      cases hpos

/-- There are no more decimal digits than the size of the number calls for. -/
theorem pow_decimals_le (h : integerForm? text = some (form, suffix)) (hn : form.number? = some n)
    (hpos : 0 < form.decimals) : 10 ^ form.decimals ≤ 10 * n := by
  obtain ⟨d, digits, rfl, -, head, all⟩ := exists_plain_of_integerForm? h hpos
  rw [IntegerForm.number?_plain head, Option.some.injEq] at hn
  have hlast : ((d :: digits).reverse.map digitValue).getLast (by simp) ≠ 0 := by
    simpa using digitValue_ne_zero head (List.forall_mem_cons.mp all).1
  have hle := Nat.pow_length_le_mul_ofDigits (b := 8) _ hlast
  rw [List.length_map, List.length_reverse] at hle
  rw [IntegerForm.decimals_plain head, ← hn]
  exact hle

/-- What fits into 64 bits has at most twenty digits. -/
theorem decimals_le_digitLimit (h : integerForm? text = some (form, suffix))
    (hn : form.number? = some n) (fits : n < 2 ^ 64) : form.decimals ≤ Text.digitLimit := by
  rcases Nat.eq_zero_or_pos form.decimals with hzero | hpos
  · rw [hzero]
    exact Nat.zero_le _
  have hpow : 10 ^ form.decimals < 10 ^ 21 := by
    have := pow_decimals_le h hn hpos
    omega
  have hlt := (Nat.pow_lt_pow_iff_right (by decide)).mp hpow
  exact Nat.le_trans (Nat.le_of_lt hlt) (by decide)

end

/-! ## Suffixes -/

theorem suffixes_eq : suffixes =
    ([[], ['u'], ['U']].flatMap fun u =>
      sizeMarks.flatMap fun l => [u ++ l, l ++ u]).map String.ofList := by
  simp [suffixes, sizeMarks]

theorem contains_suffixes_iff {suffix : List Char} :
    suffixes.contains (String.ofList suffix) = true ↔
      ∃ u ∈ [[], ['u'], ['U']], ∃ l ∈ sizeMarks, suffix = u ++ l ∨ suffix = l ++ u := by
  rw [suffixes_eq, List.contains_iff_mem, List.mem_map]
  simp only [List.mem_flatMap, List.mem_cons, List.not_mem_nil, or_false]
  constructor
  · rintro ⟨s, hs, heq⟩
    rwa [String.ofList_injective heq] at hs
  · exact fun hs => ⟨suffix, hs, rfl⟩

theorem isSuffixChar_of_suffix {suffix : List Char} {unsigned : Bool} (h : Suffix suffix unsigned) :
    ∀ c ∈ suffix, isSuffixChar c = true := by
  have hsize : ∀ l ∈ sizeMarks, ∀ c ∈ l, isSuffixChar c = true := by
    simp [sizeMarks, isSuffixChar]
  cases h with
  | size hl => exact hsize _ hl
  | before hu hl =>
    intro c hc
    rcases List.mem_cons.mp hc with rfl | hc
    · rcases hu with rfl | rfl <;> rfl
    · exact hsize _ hl c hc
  | after hu hl =>
    intro c hc
    rcases List.mem_append.mp hc with hc | hc
    · exact hsize _ hl c hc
    · rcases hu with rfl | rfl <;> simp_all [isSuffixChar]

/-- The suffixes that are listed are those of the grammar, and `u` is what makes them unsigned. -/
theorem suffix_iff {suffix : List Char} {unsigned : Bool} :
    Suffix suffix unsigned ↔ suffixes.contains (String.ofList suffix) = true ∧
      (suffix.any fun c => c == 'u' || c == 'U') = unsigned := by
  have hsize : ∀ l ∈ sizeMarks, (l.any fun c => c == 'u' || c == 'U') = false := by decide
  rw [contains_suffixes_iff]
  constructor
  · intro h
    cases h with
    | size hl => exact ⟨⟨[], by simp, _, hl, .inl rfl⟩, hsize _ hl⟩
    | @before u l hu hl =>
      refine ⟨⟨[u], by rcases hu with rfl | rfl <;> simp, l, hl, .inl rfl⟩, ?_⟩
      rcases hu with rfl | rfl <;> rfl
    | @after u l hu hl =>
      refine ⟨⟨[u], by rcases hu with rfl | rfl <;> simp, l, hl, .inr rfl⟩, ?_⟩
      rcases hu with rfl | rfl <;> simp
  · rintro ⟨⟨u, hu, l, hl, hsuffix⟩, rfl⟩
    simp only [List.mem_cons, List.not_mem_nil, or_false] at hu
    rcases hu with rfl | rfl | rfl
    · have : suffix = l := by rcases hsuffix with rfl | rfl <;> simp
      subst this
      rw [hsize _ hl]
      exact .size hl
    · rcases hsuffix with rfl | rfl
      · exact .before (.inl rfl) hl
      · simpa using Suffix.after (.inl rfl) hl
    · rcases hsuffix with rfl | rfl
      · exact .before (.inr rfl) hl
      · simpa using Suffix.after (.inr rfl) hl

/-! ## Values -/

theorem wrap_of_lt {n : Nat} (h : n < 2 ^ 64) (unsigned : Bool) :
    Value.wrap n (unsigned || decide (Value.signedBound ≤ n)) =
      ⟨n, unsigned || decide (2 ^ 63 ≤ n)⟩ := by
  have hbound : decide (Value.signedBound ≤ n) = decide (2 ^ 63 ≤ n) := rfl
  rw [hbound]
  cases hu : unsigned || decide (2 ^ 63 ≤ n) with
  | false =>
    rw [Bool.or_eq_false_iff, decide_eq_false_iff_not] at hu
    have hbmod : (n : Int).bmod Value.modulus = n := by
      rw [Int.bmod_eq_of_le] <;> simp only [Value.modulus] <;> omega
    rw [Value.wrap, hbmod]
    rfl
  | true =>
    have hmod : (n : Int) % Value.modulus = n := by simp only [Value.modulus]; omega
    rw [Value.wrap, hmod]
    rfl

/-- Exactly the integer constants are read, and their values. None of them has more digits than are
converted. -/
theorem integer_eq_ok_iff {text : String} {v : Value} :
    integer text = .ok v ↔ IntegerConstant (chomp text.toList) v := by
  constructor
  · intro h
    unfold integer at h
    split at h
    · split at h <;> cases h
    rename_i form suffix hform
    split at h
    · cases h
    rename_i hsuffix
    split at h
    · cases h
    rename_i n hn
    split at h
    · cases h
    split at h
    · cases h
    rename_i hfits
    cases h
    obtain ⟨digits, htext, hdigits, -⟩ := numeral_of_integerForm? hform hn
    have hlt : n < 2 ^ 64 := by simp only [Value.modulus] at hfits; omega
    rw [htext, wrap_of_lt hlt]
    exact .intro hdigits (suffix_iff.mpr ⟨by simpa using hsuffix, rfl⟩) hlt
  · intro h
    generalize htext : chomp text.toList = chomped at h
    cases h with
    | @intro digits suffix n unsigned hdigits hsuffix fits =>
      obtain ⟨form, hform, hn⟩ := integerForm?_of_numeral hdigits (isSuffixChar_of_suffix hsuffix)
      obtain ⟨hcontains, hany⟩ := suffix_iff.mp hsuffix
      have hfits : ¬ Value.modulus ≤ n := by simp only [Value.modulus]; omega
      have hconverted : ¬ Text.digitLimit < form.decimals :=
        Nat.not_lt.mpr (decimals_le_digitLimit hform hn fits)
      simp only [integer, htext, hform, hcontains, hn, hconverted, hfits, hany, wrap_of_lt fits,
        Bool.not_true, Bool.false_eq_true, if_false]

/-- A number that cannot be read is a syntax error or could not be converted. -/
theorem category_of_integer {text : String} {cause : ConditionFault}
    (h : integer text = .error cause) :
    cause.category = .expressionSyntax ∨ ∃ count, cause = .tooManyDigits count := by
  unfold integer at h
  split at h
  · split at h <;> cases h <;> exact .inl rfl
  split at h
  · cases h
    exact .inl rfl
  split at h
  · cases h
    exact .inl rfl
  split at h
  · cases h
    exact .inr ⟨_, rfl⟩
  split at h
  · cases h
    exact .inl rfl
  · cases h

/-- A conversion fails for the long decimal constants alone. -/
theorem integer_eq_tooManyDigits_iff {text : String} {count : Nat} :
    integer text = .error (.tooManyDigits count) ↔ LongDecimal (chomp text.toList) count := by
  constructor
  · intro h
    unfold integer at h
    split at h
    · split at h <;> cases h
    rename_i form suffix hform
    split at h
    · cases h
    rename_i hsuffix
    split at h
    · cases h
    split at h
    · rename_i hlong
      cases h
      obtain ⟨d, digits, rfl, htext, head, all⟩ :=
        exists_plain_of_integerForm? hform (Nat.zero_lt_of_lt hlong)
      rw [IntegerForm.decimals_plain head] at hlong ⊢
      rw [htext]
      exact .intro head all (suffix_iff.mpr ⟨by simpa using hsuffix, rfl⟩) hlong
    · split at h <;> cases h
  · intro h
    generalize htext : chomp text.toList = chomped at h
    cases h with
    | @intro d digits suffix unsigned head all hsuffix long =>
      have hform : integerForm? (d :: digits ++ suffix) = some (.plain (d :: digits), suffix) :=
        integerForm?_of_digits (List.cons_ne_nil _ _) all (isSuffixChar_of_suffix hsuffix)
          fun h => absurd (by simpa using h) head
      have hcontains := (suffix_iff.mp hsuffix).1
      simp only [integer, htext, hform, hcontains, IntegerForm.number?_plain head,
        IntegerForm.decimals_plain head, long, Bool.not_true, Bool.false_eq_true, if_false, if_true]

end Constant

end CPreprocessor
