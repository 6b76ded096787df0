import Mathlib.Data.Int.ModEq
import Mathlib.Data.Nat.Bitwise
import Mathlib.Data.Rat.Floor
import StackScript.Value.Arith

/-!
# Arithmetic of integers

Sum, difference, product, negative and left shift of integers are those of whole numbers up to a
multiple of `2 ^ 64`.  A remainder and a right shift stay in range, so they are exact.  A shift
takes its second operand modulo 64, whatever the sign of it.
-/

namespace StackScript

/-! ## Words of 64 bits -/

def shiftCount (n : Int64) : Nat :=
  (n.toInt % 64).toNat

section Words

variable {a b n : Int64} {z : Int}

theorem toInt_modEq_iff : n.toInt ≡ z [ZMOD 2 ^ 64] ↔ n.toInt = z.bmod (2 ^ 64) := by
  have hlow := n.le_toInt
  have hhigh := n.toInt_lt
  rw [Int.ModEq, Int.bmod_def]
  omega

/-- The bits of the count are those of the second operand modulo 64. -/
theorem toNat_smod_sixtyFour (n : Int64) : (n.toBitVec.smod 64).toNat = shiftCount n := by
  have hmod : (n.toBitVec.smod 64).toInt = n.toInt % 64 := by
    rw [BitVec.toInt_smod, Int64.toInt_toBitVec]
    exact Int.fmod_eq_emod_of_nonneg _ (by decide)
  rw [BitVec.toInt_eq_toNat_cond] at hmod
  simp only [shiftCount]
  omega

theorem toInt_shiftLeft (a b : Int64) :
    (a <<< b).toInt = (a.toInt * 2 ^ shiftCount b).bmod (2 ^ 64) := by
  have hword : (a <<< b).toInt = (a.toBitVec <<< shiftCount b).toInt := by
    rw [← toNat_smod_sixtyFour, ← BitVec.shiftLeft_eq']
    rfl
  have hnat : a.toInt = (a.toBitVec.toNat : Int).bmod (2 ^ 64) := by
    rw [← Int64.toInt_toBitVec, BitVec.toInt_eq_toNat_bmod]
  rw [hword, BitVec.toInt_shiftLeft, hnat, Int.bmod_mul_bmod, Nat.shiftLeft_eq]
  push_cast
  rfl

theorem toInt_shiftRight (a b : Int64) :
    (a >>> b).toInt = ⌊(a.toInt : ℚ) / 2 ^ shiftCount b⌋ := by
  have hword : (a >>> b).toInt = (a.toBitVec.sshiftRight (shiftCount b)).toInt := by
    rw [← toNat_smod_sixtyFour, ← BitVec.sshiftRight_eq']
    rfl
  have hfloor := Rat.floor_intCast_div_natCast a.toInt (2 ^ shiftCount b)
  rw [hword, BitVec.toInt_sshiftRight, Int64.toInt_toBitVec, Int.shiftRight_eq_div_pow, ← hfloor]
  push_cast
  rfl

/-- The sum without carries and the carries make up the sum. -/
theorem xor_add_two_mul_and (a b : Nat) : (a ^^^ b) + 2 * (a &&& b) = a + b := by
  induction a using Nat.strongRecOn generalizing b with
  | ind a ih =>
      by_cases ha : a = 0
      · simp [ha]
      · have hhalf := ih (a / 2) (by omega) (b / 2)
        have hand : (a &&& b) % 2 = 1 ↔ a % 2 = 1 ∧ b % 2 = 1 := Nat.and_mod_two_eq_one
        have hxor : (a ^^^ b) % 2 = (a + b) % 2 := Nat.xor_mod_two_eq
        rw [← Nat.xor_div_two, ← Nat.and_div_two] at hhalf
        omega

theorem xor_add_and_shiftLeft (a b : Int64) : (a ^^^ b) + ((a &&& b) <<< 1) = a + b := by
  apply Int64.toBitVec_inj.mp
  apply BitVec.eq_of_toNat_eq
  have hcarries : ((a &&& b) <<< 1).toBitVec = (a.toBitVec &&& b.toBitVec) <<< 1 := rfl
  have hsum := xor_add_two_mul_and a.toBitVec.toNat b.toBitVec.toNat
  rw [Int64.toBitVec_add, Int64.toBitVec_add, Int64.toBitVec_xor, hcarries]
  rw [BitVec.toNat_add, BitVec.toNat_add, BitVec.toNat_xor, BitVec.toNat_shiftLeft,
    BitVec.toNat_and, Nat.shiftLeft_eq]
  omega

/-- The bits that stand in one operand and those that stand in both make up the bits that stand in
any. -/
theorem xor_add_and (a b : Int64) : (a ^^^ b) + (a &&& b) = a ||| b := by
  apply Int64.toBitVec_inj.mp
  have hapart : (a.toBitVec ^^^ b.toBitVec) &&& (a.toBitVec &&& b.toBitVec) = 0#64 := by
    ext i hi
    simp
    grind
  rw [Int64.toBitVec_add, Int64.toBitVec_xor, Int64.toBitVec_and, Int64.toBitVec_or,
    BitVec.add_eq_or_of_and_eq_zero _ _ hapart]
  ext i hi
  simp
  grind

end Words

/-! ## Answers -/

namespace Value

/-- The answer is the one integer that differs from a number by a multiple of `2 ^ 64`. -/
def AnswersModulo (x : Except Fault Value) (z : Int) : Prop :=
  exists n : Int64, x = .ok (.integer n) ∧ forall m : Int64, m.toInt ≡ z [ZMOD 2 ^ 64] ↔ m = n

def AnswersExactly (x : Except Fault Value) (z : Int) : Prop :=
  exists n : Int64, x = .ok (.integer n) ∧ n.toInt = z

section Answers

variable {h : Heap} {a b n : Int64} {z : Int}

theorem answersModulo (hn : n.toInt = z.bmod (2 ^ 64)) : AnswersModulo (.ok (.integer n)) z := by
  refine ⟨n, rfl, ?_⟩
  intro m
  rw [toInt_modEq_iff, ← hn, Int64.toInt_inj]

theorem modulo_zero (a : Int64) :
    modulo (.integer a) (.integer 0) = .error (.divisionByZero "Modulo") := by
  simp [modulo, Operator.label]

theorem modulo_integer (hb : b ≠ 0) :
    modulo (.integer a) (.integer b) = .ok (.integer (a % b)) := by
  simp [modulo, hb]

/-- A remainder is smaller than the divisor, and it is zero or has the sign of the dividend. -/
theorem toInt_mod_bounds (a : Int64) (hb : b ≠ 0) :
    (a % b).toInt.natAbs < b.toInt.natAbs ∧
      ((a % b).toInt = 0 ∨ (a % b).toInt.sign = a.toInt.sign) := by
  have hzero : b.toInt ≠ 0 := fun heq => hb (Int64.toInt_inj.mp heq)
  rw [Int64.toInt_mod]
  constructor
  · rw [Int.natAbs_tmod]
    exact Nat.mod_lt _ (by omega)
  · rcases Int.le_total 0 a.toInt with ha | ha
    · have hrest := Int.tmod_nonneg b.toInt ha
      grind [Int.sign_eq_one_iff_pos, Int.zero_tmod]
    · have hrest := Int.tmod_nonneg b.toInt (Int.neg_nonneg_of_nonpos ha)
      rw [Int.neg_tmod] at hrest
      grind [Int.sign_eq_neg_one_iff_neg, Int.zero_tmod]

end Answers

/-- Integers are added, subtracted, multiplied, negated and shifted to the left up to a multiple of
`2 ^ 64`.  The remainder is that of the division towards zero and is missing only for the divisor
zero, and a right shift rounds down.  Turning all bits over is the negative less one, and the three
operations on pairs of bits take addition apart into sums and carries. -/
theorem integers_wrap_around (h : Heap) (a b : Int64) :
    AnswersModulo (Operator.add.apply h (.integer a) (.integer b)) (a.toInt + b.toInt) ∧
    AnswersModulo (Operator.subtract.apply h (.integer a) (.integer b)) (a.toInt - b.toInt) ∧
    AnswersModulo (Operator.multiply.apply h (.integer a) (.integer b)) (a.toInt * b.toInt) ∧
    AnswersModulo (negate (.integer a)) (-a.toInt) ∧
    ((b = 0 ∧ Operator.modulo.apply h (.integer a) (.integer b) =
        .error (.divisionByZero "Modulo")) ∨
      (b ≠ 0 ∧ exists n : Int64,
        Operator.modulo.apply h (.integer a) (.integer b) = .ok (.integer n) ∧
        n.toInt = a.toInt.tmod b.toInt ∧ n.toInt.natAbs < b.toInt.natAbs ∧
        (n.toInt = 0 ∨ n.toInt.sign = a.toInt.sign))) ∧
    Operator.modulo.apply h (.integer Int64.minValue) (.integer (-1)) = .ok (.integer 0) ∧
    bitNot (.integer a) = (negate (.integer a) >>= fun n =>
      Operator.subtract.apply h n (.integer 1)) ∧
    AnswersModulo (Operator.shiftLeft.apply h (.integer a) (.integer b))
      (a.toInt * 2 ^ (b.toInt % 64).toNat) ∧
    AnswersExactly (Operator.shiftRight.apply h (.integer a) (.integer b))
      ⌊(a.toInt : ℚ) / 2 ^ (b.toInt % 64).toNat⌋ ∧
    (exists sum both carries,
      Operator.bitXor.apply h (.integer a) (.integer b) = .ok sum ∧
      Operator.bitAnd.apply h (.integer a) (.integer b) = .ok both ∧
      Operator.shiftLeft.apply h both (.integer 1) = .ok carries ∧
      Operator.add.apply h (.integer a) (.integer b) = Operator.add.apply h sum carries ∧
      Operator.bitOr.apply h (.integer a) (.integer b) = Operator.add.apply h sum both) := by
  have hadd (x y : Int64) : Operator.add.apply h (.integer x) (.integer y) =
      .ok (.integer (x + y)) := rfl
  refine ⟨answersModulo (Int64.toInt_add a b), answersModulo (Int64.toInt_sub a b),
    answersModulo (Int64.toInt_mul a b), answersModulo (Int64.toInt_neg a), ?_, ?_, ?_,
    answersModulo (toInt_shiftLeft a b), ⟨a >>> b, rfl, toInt_shiftRight a b⟩, ?_⟩
  · by_cases hb : b = 0
    · rw [hb]
      exact Or.inl ⟨rfl, modulo_zero a⟩
    · exact Or.inr ⟨hb, a % b, modulo_integer hb, Int64.toInt_mod a b, toInt_mod_bounds a hb⟩
  · rw [Operator.apply, modulo_integer (by decide)]
    decide
  · rw [bitNot, Int64.not_eq_neg_sub]
    rfl
  · refine ⟨_, _, _, rfl, rfl, rfl, ?_, ?_⟩
    · rw [hadd, hadd, xor_add_and_shiftLeft]
    · rw [hadd, xor_add_and]
      rfl

/-- A count below zero shifts as far as the count that is larger by 64. -/
example : Operator.shiftLeft.apply Heap.empty (.integer 1) (.integer (-1)) =
    .ok (.integer Int64.minValue) := by
  decide

end Value
end StackScript
