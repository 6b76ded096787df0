import Mathlib.Algebra.Order.Floor.Semifield
import Mathlib.Data.Rat.Floor
import StackScript.Proofs.Number.Rounding

/-!
# The absolute value of a number

A finite word stands for its significand times a power of two.  Significand and exponent can be
read off the lower 63 bits in one way only, so a number is the one nearest to its own value, and
the lower 63 bits are ordered as the values are.
-/

namespace StackScript
namespace Binary64

variable {x y : Binary64} {m : Nat} {u : Int}

/-! ## Words and their parts -/

theorem twoTo_63 : twoTo 63 = 9223372036854775808 :=
  rfl

theorem infinityMagnitude_eq : infinityMagnitude = 9218868437227405312 :=
  rfl

theorem magnitude_ofMagnitude (negative : Bool) (h : m < twoTo 63) :
    (ofMagnitude negative m).magnitude = m := by
  rw [twoTo_63] at h
  simp only [ofMagnitude, magnitude, UInt64.toNat_ofNat', twoTo_63]
  split <;> omega

theorem isNegative_ofMagnitude (negative : Bool) (h : m < twoTo 63) :
    (ofMagnitude negative m).isNegative = negative := by
  rw [twoTo_63] at h
  simp only [ofMagnitude, isNegative, UInt64.toNat_ofNat', twoTo_63]
  cases negative
  · simp
    omega
  · simp
    omega

theorem ofMagnitude_magnitude (x : Binary64) : ofMagnitude x.isNegative x.magnitude = x := by
  cases x with
  | mk bits =>
    have hword := bits.toNat_lt
    simp only [ofMagnitude, isNegative, magnitude, twoTo_63, mk.injEq]
    apply UInt64.toNat_inj.mp
    rw [UInt64.toNat_ofNat']
    by_cases h : 9223372036854775808 <= bits.toNat
    · simp only [h, decide_true, if_true]
      omega
    · simp only [h, decide_false, Bool.false_eq_true, if_false]
      omega

theorem isFinite_iff : x.isFinite ↔ x.magnitude < infinityMagnitude := by
  simp [isFinite]

/-! ## Significand and exponent -/

def absolute (x : Binary64) : Rat :=
  x.significand * 2 ^ x.exponent

theorem significand_lt (x : Binary64) : x.significand < 2 ^ 53 := by
  simp only [significand, fraction, twoTo_52]
  split <;> omega

theorem exponent_ge (x : Binary64) : -1074 <= x.exponent := by
  simp only [exponent]
  omega

theorem exponent_or_significand (x : Binary64) : x.exponent = -1074 ∨ 2 ^ 52 <= x.significand := by
  simp only [exponent, significand, twoTo_52]
  split <;> omega

theorem magnitude_eq_pack (x : Binary64) : x.magnitude = pack x.exponent x.significand := by
  simp only [pack, exponent, significand, field, fraction, twoTo_52]
  by_cases h : x.magnitude / 4503599627370496 = 0
  · simp only [h, if_true]
    omega
  · simp only [h, if_false]
    omega

/-- The lower 63 bits determine the significand and the exponent. -/
theorem parts_of_pack (h : x.magnitude = pack u m) (hm : m < 2 ^ 53) (hu : -1074 <= u)
    (hlow : u = -1074 ∨ 2 ^ 52 <= m) : x.significand = m ∧ x.exponent = u := by
  have hx := magnitude_eq_pack x
  have hlt := significand_lt x
  have hge := exponent_ge x
  have hor := exponent_or_significand x
  rw [h] at hx
  simp only [pack, twoTo_52] at hx
  omega

theorem absolute_congr (h : x.magnitude = y.magnitude) : x.absolute = y.absolute := by
  rcases parts_of_pack (h.trans (magnitude_eq_pack y)) (significand_lt y) (exponent_ge y)
    (exponent_or_significand y) with ⟨hm, hu⟩
  rw [absolute, absolute, hm, hu]

theorem absolute_nonneg (x : Binary64) : 0 <= x.absolute :=
  mul_nonneg (Nat.cast_nonneg _) (two_zpow_pos _).le

/-! ## A number is the nearest one to its value -/

theorem inBinade_absolute (x : Binary64) : InBinade x.absolute x.exponent := by
  have hpos := two_zpow_pos x.exponent
  constructor
  · exact exponent_ge x
  · rw [absolute, two_zpow_add, mul_comm]
    apply mul_lt_mul_of_pos_left _ hpos
    exact_mod_cast significand_lt x
  · apply (exponent_or_significand x).imp_right
    intro h
    rw [absolute, two_zpow_add, mul_comm]
    apply mul_le_mul_of_nonneg_right _ hpos.le
    exact_mod_cast h

theorem min_pack_of_finite (h : x.isFinite) :
    x.magnitude = min (pack x.exponent x.significand) infinityMagnitude := by
  rw [← magnitude_eq_pack]
  exact (min_eq_left (isFinite_iff.mp h).le).symm

theorem nearest_absolute (h : x.isFinite) : Nearest x.absolute x.magnitude := by
  exists x.exponent, x.significand
  constructor
  · exact inBinade_absolute x
  · constructor
    · rw [absolute, mul_div_cancel_right₀ _ (two_zpow_pos _).ne']
      exact roundsTo_natCast _
    · exact min_pack_of_finite h

/-- Of finite numbers the lower 63 bits are ordered as the absolute values are. -/
theorem absolute_le_iff (hx : x.isFinite) (hy : y.isFinite) :
    x.absolute <= y.absolute ↔ x.magnitude <= y.magnitude := by
  constructor
  · exact (nearest_absolute hx).mono (nearest_absolute hy)
  · intro h
    by_contra hlt
    have hle := (nearest_absolute hy).mono (nearest_absolute hx) (le_of_not_ge hlt)
    exact hlt (absolute_congr (Nat.le_antisymm h hle)).le

/-! ## Whole numbers -/

theorem absolute_eq_quotient (x : Binary64) : x.absolute =
    ((x.significand * twoTo x.exponent.toNat : Nat) : Rat) / (twoTo (-x.exponent).toNat : Nat) := by
  rw [absolute, zpow_eq_div]
  push_cast [cast_twoTo]
  ring

theorem wholePart_eq_floor (x : Binary64) : x.wholePart = ⌊x.absolute⌋₊ := by
  rw [absolute_eq_quotient, Nat.floor_div_eq_div, wholePart]

theorem le_wholePart_iff {n : Nat} : n <= x.wholePart ↔ (n : Rat) <= x.absolute := by
  rw [wholePart_eq_floor, Nat.le_floor_iff (absolute_nonneg x)]

theorem isWhole_iff (hx : x.isFinite) : x.isWhole ↔ exists n : Nat, x.absolute = n := by
  have hpos : ((twoTo (-x.exponent).toNat : Nat) : Rat) ≠ 0 := by
    exact_mod_cast (twoTo_pos _).ne'
  simp only [isWhole, hx, Bool.true_and, beq_iff_eq]
  rw [absolute_eq_quotient]
  constructor
  · intro hmod
    rcases Nat.dvd_of_mod_eq_zero hmod with ⟨k, hk⟩
    exists k * twoTo x.exponent.toNat
    rw [div_eq_iff hpos, hk]
    push_cast
    ring
  · intro hwhole
    rcases hwhole with ⟨n, hn⟩
    rw [div_eq_iff hpos] at hn
    have hn' : x.significand * twoTo x.exponent.toNat = n * twoTo (-x.exponent).toNat := by
      exact_mod_cast hn
    rcases le_total 0 x.exponent with he | he
    · have hzero : (-x.exponent).toNat = 0 := by omega
      rw [hzero]
      exact Nat.mod_one _
    · have hzero : x.exponent.toNat = 0 := by omega
      rw [hzero] at hn'
      have hn'' : x.significand = n * twoTo (-x.exponent).toNat := by
        rw [← hn']
        exact (Nat.mul_one _).symm
      rw [hn'']
      exact Nat.mul_mod_left _ _

theorem absolute_of_isWhole (hx : x.isFinite) (h : x.isWhole) : x.absolute = x.wholePart := by
  rcases (isWhole_iff hx).mp h with ⟨n, hn⟩
  rw [wholePart_eq_floor, hn, Nat.floor_natCast]

/-- A number that is not whole is less than `2 ^ 52`. -/
theorem absolute_lt_of_not_isWhole (hx : x.isFinite) (h : ¬ x.isWhole) : x.absolute < 2 ^ 52 := by
  have hneg : x.exponent < 0 := by
    by_contra hnat
    apply h
    have hzero : (-x.exponent).toNat = 0 := by omega
    simp only [isWhole, hx, hzero, Bool.true_and, beq_iff_eq]
    exact Nat.mod_one _
  have hsig : (x.significand : Rat) < 2 ^ 53 := by exact_mod_cast significand_lt x
  have hhalf : (2 : Rat) ^ x.exponent <= 2 ^ (-1 : Int) :=
    zpow_le_zpow_right₀ (by norm_num) (by omega)
  rw [zpow_neg_one] at hhalf
  calc x.absolute < 2 ^ 53 * 2 ^ x.exponent := mul_lt_mul_of_pos_right hsig (two_zpow_pos _)
    _ <= 2 ^ 53 * 2⁻¹ := mul_le_mul_of_nonneg_left hhalf (by norm_num)
    _ = 2 ^ 52 := by norm_num

/-- The number nearest to a natural number. -/
abbrev ofNat (n : Nat) : Binary64 :=
  ofMagnitude false (nearestMagnitude n 1)

theorem nearest_ofNat (n : Nat) : Nearest n (nearestMagnitude n 1) := by
  have h := nearest_nearestMagnitude n Nat.one_pos
  rwa [Nat.cast_one, div_one] at h

theorem nearestMagnitude_le (n d : Nat) : nearestMagnitude n d <= infinityMagnitude := by
  unfold nearestMagnitude
  split
  · exact Nat.zero_le _
  · exact min_le_right _ _

/-- Up to `2 ^ 53` every natural number is a number. -/
theorem absolute_ofNat {n : Nat} (h : n <= 2 ^ 53) : (ofNat n).absolute = n := by
  rcases h.eq_or_lt with rfl | hlt
  · have hparts : (ofNat (2 ^ 53)).significand = 2 ^ 52 ∧ (ofNat (2 ^ 53)).exponent = 1 := by
      decide
    rw [absolute, hparts.1, hparts.2]
    norm_num
  · rcases nearest_ofNat n with ⟨u, m, hu, hm, hmag⟩
    have hunit : u <= 0 := by
      rcases hu.low with hlow | hlow
      · omega
      · have hpow : (2 : Rat) ^ (u + 52) < 2 ^ (53 : Int) :=
          lt_of_le_of_lt hlow (by exact_mod_cast hlt)
        have := (zpow_lt_zpow_iff_right₀ (by norm_num : (1 : Rat) < 2)).mp hpow
        omega
    -- the number is a multiple of its unit, so nothing is rounded
    have hwhole : (n : Rat) / 2 ^ u = ((n * 2 ^ (-u).toNat : Nat) : Rat) := by
      have hzero : u.toNat = 0 := by omega
      rw [zpow_eq_div, hzero]
      push_cast
      field_simp
    have hmk : m = n * 2 ^ (-u).toNat := (hwhole ▸ hm).unique (roundsTo_natCast _)
    have hvalue : (m : Rat) * 2 ^ u = n := by
      rw [hmk, ← hwhole, div_mul_cancel₀ _ (two_zpow_pos u).ne']
    have hm53 : m < 2 ^ 53 := by
      have hhigh := hu.high
      rw [← hvalue, two_zpow_add, mul_comm, mul_lt_mul_iff_of_pos_left (two_zpow_pos u)] at hhigh
      exact_mod_cast hhigh
    have hsmall : pack u m < infinityMagnitude := by
      simp only [pack, twoTo_52, infinityMagnitude_eq]
      omega
    have hpack : (ofNat n).magnitude = pack u m := by
      rw [ofNat, magnitude_ofMagnitude, hmag, min_eq_left hsmall.le]
      apply lt_of_le_of_lt (nearestMagnitude_le n 1)
      decide
    rcases parts_of_pack hpack hm53 hu.smallest (hu.significand_bounds hm).2 with ⟨hsig, hexp⟩
    rw [absolute, hsig, hexp, hvalue]

end Binary64
end StackScript
