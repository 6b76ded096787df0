import StackScript.Proofs.Number.Absolute

/-!
# Integers as numbers

An integer becomes the number nearest to it.  That keeps the order, but two different integers can
become the same number, as soon as both have more digits than a significand.
-/

namespace StackScript
namespace Binary64

variable {i j : Int} {x y : Binary64}

/-! ## The place of an integer in the order -/

theorem nearestMagnitude_lt_twoTo (n d : Nat) : nearestMagnitude n d < twoTo 63 :=
  lt_of_le_of_lt (nearestMagnitude_le n d) (by decide)

theorem isNaN_ofInt (i : Int) : (ofInt i).isNaN = false := by
  rw [isNaN, ofInt, magnitude_ofMagnitude _ (nearestMagnitude_lt_twoTo _ _)]
  simp [nearestMagnitude_le]

theorem isNaN_ofInt64 (n : Int64) : (ofInt64 n).isNaN = false :=
  isNaN_ofInt n.toInt

theorem rank_ofInt (i : Int) :
    (ofInt i).rank =
      if i < 0 then -(nearestMagnitude i.natAbs 1 : Int) else nearestMagnitude i.natAbs 1 := by
  have hlt := nearestMagnitude_lt_twoTo i.natAbs 1
  rw [rank, ofInt, isNegative_ofMagnitude _ hlt, magnitude_ofMagnitude _ hlt]
  simp

theorem compare?_of_numbers (hx : x.isNaN = false) (hy : y.isNaN = false) :
    x.compare? y = some (compare x.rank y.rank) := by
  simp [compare?, hx, hy]

theorem equal_iff : x.equal y ↔ x.isNaN = false ∧ y.isNaN = false ∧ x.rank = y.rank := by
  by_cases h : x.isNaN || y.isNaN
  · have hnone : x.equal y = false := by simp [equal, compare?, h]
    simp only [Bool.or_eq_true] at h
    rw [hnone]
    rcases h with h | h <;> simp [h]
  · simp only [Bool.or_eq_true, not_or, Bool.not_eq_true] at h
    simp [equal, compare?_of_numbers h.1 h.2, h]

theorem equal_symm (x y : Binary64) : x.equal y = y.equal x := by
  rw [Bool.eq_iff_iff, equal_iff, equal_iff, eq_comm (a := x.rank)]
  exact and_left_comm

theorem equal_trans {z : Binary64} (hxy : x.equal y) (hyz : y.equal z) : x.equal z := by
  rw [equal_iff] at hxy hyz ⊢
  exact ⟨hxy.1, hyz.2.1, hxy.2.2.trans hyz.2.2⟩

theorem nearestMagnitude_nat_mono {n n' : Nat} (h : n <= n') :
    nearestMagnitude n 1 <= nearestMagnitude n' 1 :=
  (nearest_ofNat n).mono (nearest_ofNat n') (by exact_mod_cast h)

theorem nearestMagnitude_pos {n : Nat} (h : 0 < n) : 0 < nearestMagnitude n 1 :=
  lt_of_lt_of_le (by decide : 0 < nearestMagnitude 1 1) (nearestMagnitude_nat_mono h)

theorem nearestMagnitude_nat_lt {n n' : Nat} (h : n < n') (hbound : n' <= 2 ^ 53) :
    nearestMagnitude n 1 < nearestMagnitude n' 1 := by
  apply lt_of_le_of_ne (nearestMagnitude_nat_mono h.le)
  intro heq
  have hvalue : ((n : Nat) : Rat) = n' := by
    rw [← absolute_ofNat (h.le.trans hbound), ← absolute_ofNat hbound, ofNat, ofNat, heq]
  have : n = n' := by exact_mod_cast hvalue
  omega

/-- Becoming a number keeps the order of integers. -/
theorem rank_ofInt_mono (h : i <= j) : (ofInt i).rank <= (ofInt j).rank := by
  rw [rank_ofInt, rank_ofInt]
  split
  · split
    · have := nearestMagnitude_nat_mono (show j.natAbs <= i.natAbs by omega)
      omega
    · omega
  · split
    · omega
    · have := nearestMagnitude_nat_mono (show i.natAbs <= j.natAbs by omega)
      omega

/-- Different integers of at most 53 bits, or one bit more with no fraction lost, become different
numbers. -/
theorem rank_ofInt_lt (h : i < j) (hi : i.natAbs <= 2 ^ 53) (hj : j.natAbs <= 2 ^ 53) :
    (ofInt i).rank < (ofInt j).rank := by
  rw [rank_ofInt, rank_ofInt]
  split
  · split
    · have := nearestMagnitude_nat_lt (show j.natAbs < i.natAbs by omega) hi
      omega
    · have := nearestMagnitude_pos (show 0 < i.natAbs by omega)
      omega
  · split
    · omega
    · have := nearestMagnitude_nat_lt (show i.natAbs < j.natAbs by omega) hj
      omega

/-- An integer below `2 ^ 53` shares its number with no other integer. -/
theorem rank_ofInt_lt_of_small (h : i < j) (hsmall : i.natAbs < 2 ^ 53 ∨ j.natAbs < 2 ^ 53) :
    (ofInt i).rank < (ofInt j).rank := by
  rcases hsmall with hi | hj
  · have hstep := rank_ofInt_lt (show i < i + 1 by omega) hi.le (by omega)
    exact lt_of_lt_of_le hstep (rank_ofInt_mono h)
  · have hstep := rank_ofInt_lt (show j - 1 < j by omega) (by omega) hj.le
    exact lt_of_le_of_lt (rank_ofInt_mono (by omega)) hstep

theorem rank_ofInt_inj : (ofInt i).rank = (ofInt j).rank ↔ ofInt i = ofInt j := by
  constructor
  · intro h
    rw [rank_ofInt, rank_ofInt] at h
    have hi := nearestMagnitude_pos (n := i.natAbs)
    have hj := nearestMagnitude_pos (n := j.natAbs)
    by_cases hneg : i < 0
    · have hneg' : j < 0 := by
        by_contra hpos
        simp only [hneg, hpos, if_true, if_false] at h
        omega
      simp only [hneg, hneg', if_true] at h
      have hmag : nearestMagnitude i.natAbs 1 = nearestMagnitude j.natAbs 1 := by omega
      simp [ofInt, hneg, hneg', hmag]
    · have hpos : ¬ j < 0 := by
        intro hneg'
        simp only [hneg, hneg', if_true, if_false] at h
        omega
      simp only [hneg, hpos, if_false] at h
      have hmag : nearestMagnitude i.natAbs 1 = nearestMagnitude j.natAbs 1 := by omega
      simp [ofInt, hneg, hpos, hmag]
  · intro h
    rw [h]

/-- Two integers that become one number are equal, or both are large. -/
theorem large_of_ofInt_eq (h : ofInt i = ofInt j) (hne : i ≠ j) :
    2 ^ 53 <= i.natAbs ∧ 2 ^ 53 <= j.natAbs := by
  have hrank := congrArg rank h
  by_contra hsmall
  have hsmall' : i.natAbs < 2 ^ 53 ∨ j.natAbs < 2 ^ 53 := by omega
  rcases lt_or_gt_of_ne hne with hlt | hlt
  · exact (rank_ofInt_lt_of_small hlt hsmall').ne hrank
  · exact (rank_ofInt_lt_of_small hlt hsmall'.symm).ne' hrank

/-! ## Cut off to 64 bits

Beyond the 64-bit range lies a number of its own above the range, but below it the smallest
integer is also the number nearest to the integers next to it.
-/

theorem wholePart_mono (hx : x.isFinite) (hy : y.isFinite) (h : x.magnitude <= y.magnitude) :
    x.wholePart <= y.wholePart := by
  rw [le_wholePart_iff]
  have hfloor : (x.wholePart : Rat) <= x.absolute := le_wholePart_iff.mp le_rfl
  exact hfloor.trans ((absolute_le_iff hx hy).mpr h)

theorem wholePart_ofMagnitude_mono (negative : Bool) {m m' : Nat} (h : m <= m')
    (hm : m' < infinityMagnitude) :
    (ofMagnitude false m).wholePart <= (ofMagnitude negative m').wholePart := by
  have hlt' : m' < twoTo 63 := hm.trans (by decide)
  have hlt : m < twoTo 63 := lt_of_le_of_lt h hlt'
  apply wholePart_mono
  · rw [isFinite_iff, magnitude_ofMagnitude _ hlt]
    omega
  · rw [isFinite_iff, magnitude_ofMagnitude _ hlt']
    exact hm
  · rw [magnitude_ofMagnitude _ hlt, magnitude_ofMagnitude _ hlt']
    exact h

theorem toInt64?_eq_none (h : x.isFinite -> x.truncate < -2 ^ 63 ∨ 2 ^ 63 <= x.truncate) :
    x.toInt64? = none := by
  have hmin : Int64.minValue.toInt = -2 ^ 63 := rfl
  have hmax : Int64.maxValue.toInt = 2 ^ 63 - 1 := rfl
  rw [toInt64?, if_neg]
  simp only [Bool.and_eq_true, decide_eq_true_eq, not_and, hmin, hmax]
  intro hlow
  have := h hlow.1
  omega

/-- An integer above the range is no 64-bit integer after rounding either. -/
theorem toInt64?_above {n : Nat} (h : 2 ^ 63 <= n) :
    (ofMagnitude false (nearestMagnitude n 1)).toInt64? = none := by
  apply toInt64?_eq_none
  intro hfinite
  have hlt := nearestMagnitude_lt_twoTo n 1
  rw [isFinite_iff, magnitude_ofMagnitude _ hlt] at hfinite
  have hwhole := wholePart_ofMagnitude_mono false (nearestMagnitude_nat_mono h) hfinite
  have hedge : (ofMagnitude false (nearestMagnitude (2 ^ 63) 1)).wholePart = 2 ^ 63 := by
    decide
  rw [truncate, isNegative_ofMagnitude _ hlt]
  simp only [Bool.false_eq_true, if_false]
  omega

/-- An integer below the range becomes the smallest 64-bit integer when that is the nearest
number, and no 64-bit integer else. -/
theorem toInt64?_below {n : Nat} (h : 2 ^ 63 <= n) :
    (ofMagnitude true (nearestMagnitude n 1)).toInt64? =
      if n <= 2 ^ 63 + 1024 then some Int64.minValue else none := by
  split
  · rename_i hnear
    have hlow := nearestMagnitude_nat_mono h
    have hhigh := nearestMagnitude_nat_mono hnear
    have hedges : nearestMagnitude (2 ^ 63 + 1024) 1 = nearestMagnitude (2 ^ 63) 1 := by
      decide
    have hsame : nearestMagnitude n 1 = nearestMagnitude (2 ^ 63) 1 := by omega
    rw [hsame]
    decide
  · rename_i hfar
    apply toInt64?_eq_none
    intro hfinite
    have hlt := nearestMagnitude_lt_twoTo n 1
    rw [isFinite_iff, magnitude_ofMagnitude _ hlt] at hfinite
    have hmono := nearestMagnitude_nat_mono (show 2 ^ 63 + 1025 <= n by omega)
    have hwhole := wholePart_ofMagnitude_mono true hmono hfinite
    have hedge : (ofMagnitude false (nearestMagnitude (2 ^ 63 + 1025) 1)).wholePart =
        2 ^ 63 + 2048 := by
      decide
    rw [truncate, isNegative_ofMagnitude _ hlt]
    simp only [if_true]
    omega

end Binary64
end StackScript
