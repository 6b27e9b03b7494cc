import Mathlib.Data.Int.Bitwise
import CPreprocessor.Proofs.Condition.Signedness

/-!
# The arithmetic of conditions is that of 64-bit words

Operators compute with integers and cut the result off. On values that their types have this is what a
machine computes from the bits of the operands: `BinaryOperator.onBits` and `UnaryOperator.onBits` say
so without integers, and `apply_eq_onBits` that the outcome has just these bits. An integer is cut off
by `BitVec.ofInt`, which goes through sums, products and the bitwise operations (`ofInt_lor` and its
kin); for quotients, comparisons and right shifts an operand must be the integer that its bits denote
(`Value.operand_eq`).
-/

namespace CPreprocessor

/-! ## Operations on words -/

/-- The word of a truth value. -/
def truthBits (b : Bool) : BitVec 64 := if b then 1 else 0

namespace BinaryOperator

/-- Whether the result is unsigned, given whether the left and the right operand are. -/
def joinedType (op : BinaryOperator) (l r : Bool) : Bool :=
  match op with
  | or | and | eq | ne | lt | le | gt | ge => false
  | shiftLeft | shiftRight => l
  | bitOr | bitXor | bitAnd | add | sub | mul | div | mod => l || r

/-- What a machine computes from two words, given whether the left and the right operand are unsigned.
The signed quotient is truncated toward zero. -/
def onBits (op : BinaryOperator) (l r : Bool) (a b : BitVec 64) : BitVec 64 :=
  match op with
  | or => truthBits (a != 0 || b != 0)
  | and => truthBits (a != 0 && b != 0)
  | bitOr => a ||| b
  | bitXor => a ^^^ b
  | bitAnd => a &&& b
  | eq => truthBits (a == b)
  | ne => truthBits (a != b)
  | lt => truthBits (if l || r then a.ult b else a.slt b)
  | le => truthBits (if l || r then a.ule b else a.sle b)
  | gt => truthBits (if l || r then b.ult a else b.slt a)
  | ge => truthBits (if l || r then b.ule a else b.sle a)
  | shiftLeft => a <<< b
  | shiftRight => if l then a >>> b else a.sshiftRight' b
  | add => a + b
  | sub => a - b
  | mul => a * b
  | div => if l || r then a.udiv b else a.sdiv b
  | mod => if l || r then a.umod b else a.srem b

end BinaryOperator

namespace UnaryOperator

def resultType (op : UnaryOperator) (unsigned : Bool) : Bool :=
  match op with
  | not => false
  | plus | minus | complement => unsigned

def onBits (op : UnaryOperator) (a : BitVec 64) : BitVec 64 :=
  match op with
  | plus => a
  | minus => -a
  | not => truthBits (a == 0)
  | complement => ~~~a

end UnaryOperator

/-! ## Values and their bits -/

/-- The integer that a word denotes. -/
def denoted (unsigned : Bool) (a : BitVec 64) : Int := if unsigned then a.toNat else a.toInt

section
variable {a b : BitVec 64} {u : Bool}

theorem denoted_inj : denoted u a = denoted u b ↔ a = b := by
  cases u with
  | false => exact BitVec.toInt_inj
  | true => exact Int.ofNat_inj.trans BitVec.toNat_inj

theorem denoted_eq_zero_iff : denoted u a = 0 ↔ a = 0 := by
  rw [← denoted_inj (u := u) (b := 0)]
  cases u <;> rfl

theorem denoted_lt_iff : denoted u a < denoted u b ↔ (if u then a.ult b else a.slt b) = true := by
  cases u with
  | false => exact BitVec.slt_iff_toInt_lt.symm
  | true => exact Int.ofNat_lt.trans BitVec.ult_iff_toNat_lt.symm

theorem denoted_le_iff : denoted u a ≤ denoted u b ↔ (if u then a.ule b else a.sle b) = true := by
  cases u with
  | false => exact BitVec.sle_iff_toInt_le.symm
  | true => exact Int.ofNat_le.trans BitVec.ule_iff_toNat_le.symm

end

namespace Value

variable {v : Value} {u : Bool}

instance (v : Value) : Decidable v.InRange :=
  inferInstanceAs (Decidable (if v.unsigned then 0 ≤ v.value ∧ v.value < modulus
    else -(signedBound : Int) ≤ v.value ∧ v.value < signedBound))

theorem inRange_wrap (n : Int) (u : Bool) : (wrap n u).InRange := by
  cases u with
  | false =>
    have hle := Int.le_bmod (x := n) (m := modulus) (by decide)
    have hlt := Int.bmod_lt (x := n) (m := modulus) (by decide)
    simp only [modulus] at hle hlt
    simp only [InRange, wrap, Bool.false_eq_true, if_false, modulus, signedBound]
    omega
  | true =>
    simp only [InRange, wrap, if_true, modulus]
    omega

theorem inRange_ofBool (b : Bool) : (ofBool b).InRange := by cases b <;> decide

theorem bits_wrap (n : Int) (u : Bool) : (wrap n u).bits = BitVec.ofInt 64 n := by
  apply BitVec.eq_of_toInt_eq
  rw [bits, BitVec.toInt_ofInt, BitVec.toInt_ofInt, wrap]
  cases u with
  | false => exact Int.bmod_bmod
  | true => exact Int.emod_bmod ..

/-- Integers that are cut off to the same word give the same value. -/
theorem wrap_congr {m n : Int} (h : BitVec.ofInt 64 m = BitVec.ofInt 64 n) (u : Bool) :
    wrap m u = wrap n u := by
  cases u with
  | false =>
    have hsigned := congrArg BitVec.toInt h
    rw [BitVec.toInt_ofInt, BitVec.toInt_ofInt] at hsigned
    exact congrArg (Value.mk · false) hsigned
  | true =>
    have hunsigned := congrArg BitVec.toNat h
    rw [BitVec.toNat_ofInt, BitVec.toNat_ofInt] at hunsigned
    refine congrArg (Value.mk · true) ?_
    simp only [if_true, modulus]
    omega

theorem bits_ofBool (b : Bool) : (ofBool b).bits = truthBits b := by cases b <;> rfl

theorem ofInt_operand (v : Value) (u : Bool) : BitVec.ofInt 64 (v.operand u) = v.bits := by
  cases u with
  | false => rfl
  | true =>
    apply BitVec.eq_of_toInt_eq
    rw [bits, BitVec.toInt_ofInt, BitVec.toInt_ofInt]
    exact Int.emod_bmod ..

theorem asUnsigned_eq (v : Value) : v.asUnsigned = v.bits.toNat := by
  rw [asUnsigned, bits, BitVec.toNat_ofInt, modulus]
  omega

theorem value_eq (hv : v.InRange) : v.value = denoted v.unsigned v.bits := by
  unfold InRange at hv
  cases hu : v.unsigned with
  | false =>
    rw [hu, if_neg Bool.false_ne_true, signedBound] at hv
    show _ = v.bits.toInt
    rw [bits, BitVec.toInt_ofInt]
    refine (Int.bmod_eq_of_le ?_ ?_).symm <;> omega
  | true =>
    rw [hu, if_pos rfl, modulus] at hv
    show _ = (v.bits.toNat : Int)
    rw [← asUnsigned_eq, asUnsigned, modulus]
    omega

/-- An operand is the integer that its bits denote in the type of the operation. -/
theorem operand_eq (hv : v.InRange) (hu : v.unsigned = true → u = true) :
    v.operand u = denoted u v.bits := by
  cases u with
  | false =>
    have hsigned : v.unsigned = false := by simpa using hu
    exact (value_eq hv).trans (by rw [hsigned])
  | true => exact asUnsigned_eq v

theorem operand_eq_zero_iff (hv : v.InRange) (hu : v.unsigned = true → u = true) :
    v.operand u = 0 ↔ v.value = 0 := by
  rw [operand_eq hv hu, value_eq hv, denoted_eq_zero_iff, denoted_eq_zero_iff]

theorem bits_eq_zero_iff (hv : v.InRange) : v.bits = 0 ↔ v.value = 0 := by
  rw [value_eq hv, denoted_eq_zero_iff]

theorem truthy_eq_bits (hv : v.InRange) : v.truthy = (v.bits != 0) := by
  rw [Bool.eq_iff_iff, bne_iff_ne, truthy, decide_eq_true_iff, Ne, Ne, bits_eq_zero_iff hv]

end Value

/-! ## Integers that are cut off -/

section
variable (m n : Int)

theorem getLsbD_ofInt (i : Nat) :
    (BitVec.ofInt 64 n).getLsbD i = (decide (i < 64) && n.testBit i) := by
  cases n with
  | ofNat n =>
    rw [Int.ofNat_eq_natCast, BitVec.ofInt_natCast, BitVec.getLsbD_ofNat]
    rfl
  | negSucc n =>
    rw [BitVec.ofInt_negSucc_eq_not_ofNat, BitVec.getLsbD_not, BitVec.getLsbD_ofNat, Int.testBit]
    cases decide (i < 64) <;> rfl

theorem ofInt_lor : BitVec.ofInt 64 (m.lor n) = BitVec.ofInt 64 m ||| BitVec.ofInt 64 n := by
  apply BitVec.eq_of_getLsbD_eq
  intro i hi
  rw [BitVec.getLsbD_or, getLsbD_ofInt, getLsbD_ofInt, getLsbD_ofInt, Int.testBit_lor,
    Bool.and_or_distrib_left]

theorem ofInt_xor : BitVec.ofInt 64 (m.xor n) = BitVec.ofInt 64 m ^^^ BitVec.ofInt 64 n := by
  apply BitVec.eq_of_getLsbD_eq
  intro i hi
  rw [BitVec.getLsbD_xor, getLsbD_ofInt, getLsbD_ofInt, getLsbD_ofInt, Int.testBit_lxor,
    Bool.and_xor_distrib_left]

theorem ofInt_land : BitVec.ofInt 64 (m.land n) = BitVec.ofInt 64 m &&& BitVec.ofInt 64 n := by
  apply BitVec.eq_of_getLsbD_eq
  intro i hi
  rw [BitVec.getLsbD_and, getLsbD_ofInt, getLsbD_ofInt, getLsbD_ofInt, Int.testBit_land,
    decide_eq_true hi, Bool.true_and, Bool.true_and, Bool.true_and]

/-- Shifting left multiplies by a power of two. -/
theorem ofInt_mul_factor (count : Nat) :
    BitVec.ofInt 64 (n * (1 <<< count : Nat)) = BitVec.ofInt 64 n <<< count := by
  rw [BitVec.ofInt_mul, BitVec.ofInt_natCast, BitVec.shiftLeft_eq_mul_twoPow, Nat.one_shiftLeft]
  congr 1
  apply BitVec.eq_of_toNat_eq
  rw [BitVec.toNat_ofNat, BitVec.toNat_twoPow]

end

section
variable (a b : BitVec 64) (u : Bool)

/-- Shifting right divides by a power of two, downwards. -/
theorem ofInt_div_factor (count : Nat) :
    BitVec.ofInt 64 (denoted u a / (1 <<< count : Nat)) =
      if u then a >>> count else a.sshiftRight count := by
  cases u with
  | false =>
    show BitVec.ofInt 64 (a.toInt / _) = _
    rw [Nat.one_shiftLeft, ← Int.shiftRight_eq_div_pow, ← BitVec.toInt_sshiftRight, BitVec.ofInt_toInt]
    rfl
  | true =>
    show BitVec.ofInt 64 ((a.toNat : Int) / _) = a >>> count
    apply BitVec.eq_of_toNat_eq
    rw [← Int.natCast_ediv, BitVec.ofInt_natCast, BitVec.toNat_ofNat, BitVec.toNat_ushiftRight,
      Nat.one_shiftLeft, Nat.shiftRight_eq_div_pow]
    exact Nat.mod_eq_of_lt (Nat.lt_of_le_of_lt (Nat.div_le_self ..) a.isLt)

/-- The quotient of the smallest value by -1 is cut off to the smallest value again. -/
theorem ofInt_tdiv :
    BitVec.ofInt 64 ((denoted u a).tdiv (denoted u b)) = if u then a.udiv b else a.sdiv b := by
  cases u with
  | false =>
    show BitVec.ofInt 64 (a.toInt.tdiv b.toInt) = a.sdiv b
    apply BitVec.eq_of_toInt_eq
    rw [BitVec.toInt_ofInt, BitVec.toInt_sdiv]
  | true =>
    show BitVec.ofInt 64 ((a.toNat : Int).tdiv b.toNat) = a.udiv b
    apply BitVec.eq_of_toNat_eq
    rw [← Int.ofNat_tdiv, BitVec.ofInt_natCast, BitVec.toNat_ofNat, BitVec.udiv_eq, BitVec.toNat_udiv]
    exact Nat.mod_eq_of_lt (Nat.lt_of_le_of_lt (Nat.div_le_self ..) a.isLt)

theorem ofInt_tmod :
    BitVec.ofInt 64 ((denoted u a).tmod (denoted u b)) = if u then a.umod b else a.srem b := by
  cases u with
  | false =>
    show BitVec.ofInt 64 (a.toInt.tmod b.toInt) = a.srem b
    rw [← BitVec.toInt_srem, BitVec.ofInt_toInt]
  | true =>
    show BitVec.ofInt 64 ((a.toNat : Int).tmod b.toNat) = a.umod b
    apply BitVec.eq_of_toNat_eq
    rw [← Int.ofNat_tmod, BitVec.ofInt_natCast, BitVec.toNat_ofNat, BitVec.umod_eq, BitVec.toNat_umod]
    exact Nat.mod_eq_of_lt (Nat.lt_of_le_of_lt (Nat.mod_le ..) a.isLt)

end

/-! ## Operators -/

namespace BinaryOperator

variable {op : BinaryOperator} {a b v : Value}

/-- A comparison of operands is that of their words. -/
theorem bits_comparison {p : Prop} [Decidable p] {q : Bool} (h : p ↔ q = true) :
    (Value.ofBool (decide p)).bits = truthBits q := by
  rw [Value.bits_ofBool, Bool.eq_iff_iff.mpr (decide_eq_true_iff.trans h)]

theorem count_toNat (hb : b.InRange) (hle : 0 ≤ b.value) : b.value.toNat = b.bits.toNat := by
  have h := Value.asUnsigned_eq b
  unfold Value.InRange at hb
  rw [Value.asUnsigned, Value.modulus] at h
  simp only [Value.modulus, Value.signedBound] at hb
  split at hb <;> omega

/-! The bitwise operators see an integer as an endless row of bits. -/

theorem apply_bitOr (a b : Value) :
    bitOr.apply a b = .ok (.wrap ((a.operand (a.unsigned || b.unsigned)).lor
      (b.operand (a.unsigned || b.unsigned))) (a.unsigned || b.unsigned)) :=
  congrArg Except.ok (Value.wrap_congr (by rw [BitVec.ofInt_toInt, ofInt_lor]) _)

theorem apply_bitXor (a b : Value) :
    bitXor.apply a b = .ok (.wrap ((a.operand (a.unsigned || b.unsigned)).xor
      (b.operand (a.unsigned || b.unsigned))) (a.unsigned || b.unsigned)) :=
  congrArg Except.ok (Value.wrap_congr (by rw [BitVec.ofInt_toInt, ofInt_xor]) _)

theorem apply_bitAnd (a b : Value) :
    bitAnd.apply a b = .ok (.wrap ((a.operand (a.unsigned || b.unsigned)).land
      (b.operand (a.unsigned || b.unsigned))) (a.unsigned || b.unsigned)) :=
  congrArg Except.ok (Value.wrap_congr (by rw [BitVec.ofInt_toInt, ofInt_land]) _)

theorem bits_of_apply (ha : a.InRange) (hb : b.InRange) (h : op.apply a b = .ok v) :
    v.bits = op.onBits a.unsigned b.unsigned a.bits b.bits := by
  have hl := Value.operand_eq (u := a.unsigned || b.unsigned) ha (by simp +contextual)
  have hr := Value.operand_eq (u := a.unsigned || b.unsigned) hb (by simp +contextual)
  unfold apply at h
  cases op with
  | or | and =>
    cases h
    rw [Value.bits_ofBool, Value.truthy_eq_bits ha, Value.truthy_eq_bits hb]
    rfl
  | bitOr =>
    cases (apply_bitOr a b).symm.trans h
    rw [Value.bits_wrap, ofInt_lor, Value.ofInt_operand, Value.ofInt_operand]
    rfl
  | bitXor =>
    cases (apply_bitXor a b).symm.trans h
    rw [Value.bits_wrap, ofInt_xor, Value.ofInt_operand, Value.ofInt_operand]
    rfl
  | bitAnd =>
    cases (apply_bitAnd a b).symm.trans h
    rw [Value.bits_wrap, ofInt_land, Value.ofInt_operand, Value.ofInt_operand]
    rfl
  | eq =>
    cases h
    rw [hl, hr]
    exact bits_comparison (denoted_inj.trans beq_iff_eq.symm)
  | ne =>
    cases h
    rw [hl, hr]
    exact bits_comparison (denoted_inj.not.trans bne_iff_ne.symm)
  | lt | gt =>
    cases h
    rw [hl, hr]
    exact bits_comparison denoted_lt_iff
  | le | ge =>
    cases h
    rw [hl, hr]
    exact bits_comparison denoted_le_iff
  | shiftLeft =>
    simp only at h
    split at h
    · cases h
    rename_i hcount
    cases h
    rw [shift, if_pos rfl, Value.bits_wrap, ofInt_mul_factor, count_toNat hb (by simp at hcount; omega)]
    rfl
  | shiftRight =>
    simp only at h
    split at h
    · cases h
    rename_i hcount
    cases h
    rw [shift, if_neg (by decide), Value.bits_wrap, Value.value_eq ha, ofInt_div_factor,
      count_toNat hb (by simp at hcount; omega)]
    rfl
  | add =>
    cases h
    rw [Value.bits_wrap, BitVec.ofInt_add, Value.ofInt_operand, Value.ofInt_operand]
    rfl
  | sub =>
    cases h
    rw [Value.bits_wrap, Int.sub_eq_add_neg, BitVec.ofInt_add, BitVec.ofInt_neg, Value.ofInt_operand,
      Value.ofInt_operand, ← BitVec.sub_eq_add_neg]
    rfl
  | mul =>
    cases h
    rw [Value.bits_wrap, BitVec.ofInt_mul, Value.ofInt_operand, Value.ofInt_operand]
    rfl
  | div =>
    simp only at h
    split at h
    · cases h
    cases h
    rw [Value.bits_wrap, hl, hr, ofInt_tdiv]
    rfl
  | mod =>
    simp only at h
    split at h
    · cases h
    cases h
    rw [Value.bits_wrap, hl, hr, ofInt_tmod]
    rfl

theorem inRange_of_apply (h : op.apply a b = .ok v) : v.InRange := by
  unfold apply at h
  cases op with
  | or | and | eq | ne | lt | le | gt | ge =>
    cases h
    exact Value.inRange_ofBool _
  | bitOr | bitXor | bitAnd | add | sub | mul =>
    cases h
    exact Value.inRange_wrap ..
  | shiftLeft | shiftRight =>
    simp only at h
    split at h
    · cases h
    cases h
    rw [shift]
    split <;> exact Value.inRange_wrap ..
  | div | mod =>
    simp only at h
    split at h
    · cases h
    cases h
    exact Value.inRange_wrap ..

theorem unsigned_eq_joinedType (h : op.apply a b = .ok v) :
    v.unsigned = op.joinedType a.unsigned b.unsigned := by
  have htype : v.unsigned = (Expression.binary op default (.constant a) (.constant b)).unsigned :=
    unsigned_of_apply h rfl rfl
  rw [htype]
  cases op <;> rfl

theorem apply_eq_error_iff (hb : b.InRange) {cause : ConditionFault} :
    op.apply a b = .error cause ↔
      (op = div ∨ op = mod) ∧ b.value = 0 ∧ cause = .divisionByZero (op = mod) ∨
      (op = shiftLeft ∨ op = shiftRight) ∧ ¬ (0 ≤ b.value ∧ b.value ≤ 63) ∧
        cause = .shiftCount b.value := by
  have hzero := Value.operand_eq_zero_iff (u := a.unsigned || b.unsigned) hb (by simp +contextual)
  unfold apply
  cases op with
  | div | mod =>
    simp only [hzero]
    split
    · rename_i h
      simp [h, eq_comm (b := cause)]
    · rename_i h
      simp [h]
  | shiftLeft | shiftRight =>
    have hcount : (decide (b.value < 0) || decide (64 ≤ b.value)) = true ↔
        ¬ (0 ≤ b.value ∧ b.value ≤ 63) := by
      rw [Bool.or_eq_true, decide_eq_true_iff, decide_eq_true_iff]
      omega
    simp only [hcount]
    split
    · rename_i h
      simp [h, eq_comm (b := cause)]
    · rename_i h
      simp [h]
  | _ => simp

/-- The quotient and the remainder make up the dividend. -/
theorem bits_div_mul_add_mod (hb : b.InRange) (h : b.value ≠ 0) :
    ∃ q r, div.apply a b = .ok q ∧ mod.apply a b = .ok r ∧ q.bits * b.bits + r.bits = a.bits := by
  have hzero := Value.operand_eq_zero_iff (u := a.unsigned || b.unsigned) hb (by simp +contextual)
  have hdivisor : b.operand (a.unsigned || b.unsigned) ≠ 0 := fun h₀ => h (hzero.mp h₀)
  refine ⟨_, _, if_neg hdivisor, if_neg hdivisor, ?_⟩
  rw [Value.bits_wrap, Value.bits_wrap, ← Value.ofInt_operand b (a.unsigned || b.unsigned),
    ← BitVec.ofInt_mul, ← BitVec.ofInt_add, Int.mul_comm, Int.mul_tdiv_add_tmod, Value.ofInt_operand]

end BinaryOperator

namespace UnaryOperator

variable {op : UnaryOperator} {a : Value}

theorem inRange_apply (ha : a.InRange) : (op.apply a).InRange := by
  cases op with
  | plus => exact ha
  | minus | complement => exact Value.inRange_wrap ..
  | not => exact Value.inRange_ofBool _

theorem unsigned_eq_resultType : (op.apply a).unsigned = op.resultType a.unsigned := by
  cases op <;> rfl

theorem bits_apply (ha : a.InRange) : (op.apply a).bits = op.onBits a.bits := by
  cases op with
  | plus => rfl
  | minus => exact (Value.bits_wrap ..).trans (BitVec.ofInt_neg ..)
  | not =>
    rw [apply, Value.bits_ofBool, Value.truthy_eq_bits ha, bne, Bool.not_not]
    rfl
  | complement =>
    rw [apply, Value.bits_wrap, Int.sub_eq_add_neg, BitVec.ofInt_add, BitVec.ofInt_neg, onBits,
      BitVec.not_eq_neg_add, BitVec.sub_eq_add_neg]
    rfl

end UnaryOperator

/-- Operators compute what a machine of 64 bits computes: on values of their types the outcome is a
value of its type, with the bits of the operation on the bits of the operands. Only a division by zero
and a shift by a count that is no bit position fail. Quotient and remainder make up the dividend. -/
theorem apply_eq_onBits (a b : Value) (ha : a.InRange) (hb : b.InRange) :
    (∀ (op : BinaryOperator) (v : Value), op.apply a b = .ok v →
      v.InRange ∧ v.unsigned = op.joinedType a.unsigned b.unsigned ∧
        v.bits = op.onBits a.unsigned b.unsigned a.bits b.bits) ∧
    (∀ (op : BinaryOperator) (cause : ConditionFault), op.apply a b = .error cause ↔
      (op = .div ∨ op = .mod) ∧ b.value = 0 ∧ cause = .divisionByZero (op = .mod) ∨
      (op = .shiftLeft ∨ op = .shiftRight) ∧ ¬ (0 ≤ b.value ∧ b.value ≤ 63) ∧
        cause = .shiftCount b.value) ∧
    (b.value ≠ 0 → ∃ q r, BinaryOperator.div.apply a b = .ok q ∧
      BinaryOperator.mod.apply a b = .ok r ∧ q.bits * b.bits + r.bits = a.bits) ∧
    ∀ op : UnaryOperator, (op.apply a).InRange ∧
      (op.apply a).unsigned = op.resultType a.unsigned ∧ (op.apply a).bits = op.onBits a.bits := by
  refine ⟨fun op v h => ?_, fun op cause => ?_, fun h => ?_, fun op => ?_⟩
  · exact ⟨BinaryOperator.inRange_of_apply h, BinaryOperator.unsigned_eq_joinedType h,
      BinaryOperator.bits_of_apply ha hb h⟩
  · exact BinaryOperator.apply_eq_error_iff hb
  · exact BinaryOperator.bits_div_mul_add_mod hb h
  · exact ⟨UnaryOperator.inRange_apply ha, UnaryOperator.unsigned_eq_resultType,
      UnaryOperator.bits_apply ha⟩

/-- The smallest signed value by -1 is that value again. -/
theorem apply_div_smallest :
    Value.InRange ⟨-9223372036854775808, false⟩ ∧ Value.InRange ⟨-1, false⟩ ∧
      BinaryOperator.div.apply ⟨-9223372036854775808, false⟩ ⟨-1, false⟩ =
        .ok ⟨-9223372036854775808, false⟩ ∧
      BinaryOperator.div.onBits false false (.intMin 64) (-1) = .intMin 64 := by
  have ha : Value.InRange ⟨-9223372036854775808, false⟩ := by decide
  have hb : Value.InRange ⟨-1, false⟩ := by decide
  have hdiv : BinaryOperator.div.apply ⟨-9223372036854775808, false⟩ ⟨-1, false⟩ =
      .ok ⟨-9223372036854775808, false⟩ := by decide
  obtain ⟨-, -, hbits⟩ := (apply_eq_onBits _ _ ha hb).1 _ _ hdiv
  exact ⟨ha, hb, hdiv, hbits.symm⟩

end CPreprocessor
