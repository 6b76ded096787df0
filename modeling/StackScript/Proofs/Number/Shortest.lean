import StackScript.Proofs.Number.Integer

/-!
# The fewest digits that read back

A decimal is read as the number nearest to it, also where reading takes a short cut.  The rationals
that are read as a given number form an interval around it, and the search for the fewest digits
looks for a point of a decimal grid in this interval.  The grid of 17 digits always has one, since
the distance of its points is below the length of the interval.  So what is found reads back.
-/

namespace StackScript
namespace Decimal

open Binary64

variable {x : Binary64} {d : Decimal} {e : Int}

/-! ## Reading a decimal -/

def value (d : Decimal) : Rat :=
  d.digits * 10 ^ d.exponent

theorem ten_zpow_pos (e : Int) : (0 : Rat) < 10 ^ e :=
  zpow_pos (by norm_num) e

theorem value_nonneg (d : Decimal) : 0 <= d.value :=
  mul_nonneg (Nat.cast_nonneg _) (ten_zpow_pos _).le

theorem value_eq_div (d : Decimal) : d.value =
    ((d.digits * tenTo d.exponent.toNat : Nat) : Rat) / (tenTo (-d.exponent).toNat : Nat) := by
  rw [value, zpow_eq_div]
  push_cast [cast_tenTo]
  ring

/-- Without a point the digits denote a natural number. -/
theorem value_of_nonneg (h : 0 <= d.exponent) :
    d.value = (d.digits * tenTo d.exponent.toNat : Nat) := by
  have hzero : (-d.exponent).toNat = 0 := by omega
  rw [value_eq_div, hzero]
  simp [tenTo]

theorem roundsTo_zero {t : Rat} (hlow : 0 <= t) (hhigh : t <= 1 / 2) : RoundsTo t 0 := by
  constructor
  · push_cast
    linarith
  · push_cast
    linarith
  · intro _
    rfl

/-- Below half of the smallest number there is only zero. -/
theorem nearest_zero {r : Rat} (hr : 0 <= r) (h : r <= 2 ^ (-1075 : Int)) : Nearest r 0 := by
  have hhalf : r / 2 ^ (-1074 : Int) <= 1 / 2 := by
    rw [div_le_iff₀ (two_zpow_pos _)]
    have hsplit : (2 : Rat) ^ (-1 + -1074 : Int) = 1 / 2 * 2 ^ (-1074 : Int) := by
      rw [two_zpow_add, zpow_neg_one, one_div]
    exact h.trans hsplit.le
  have hpos : 0 <= r / 2 ^ (-1074 : Int) := div_nonneg hr (two_zpow_pos _).le
  exists -1074, 0
  constructor
  · constructor
    · exact le_rfl
    · apply lt_of_le_of_lt h
      exact zpow_lt_zpow_right₀ (by norm_num) (by norm_num)
    · exact Or.inl rfl
  · exact ⟨roundsTo_zero hpos hhalf, rfl⟩

/-- From `2 ^ 1024` on there are no finite numbers. -/
theorem nearest_infinity {n b : Nat} (hb : 0 < b) (h : (2 : Rat) ^ (1024 : Int) <= (n : Rat) / b) :
    Nearest ((n : Rat) / b) infinityMagnitude := by
  have hedge : Nearest (2 ^ (1024 : Int)) infinityMagnitude := by
    exists 972, 2 ^ 52
    constructor
    · constructor
      · norm_num
      · exact zpow_lt_zpow_right₀ (by norm_num) (by norm_num)
      · exact Or.inr le_rfl
    · constructor
      · rw [← zpow_sub₀ (by norm_num)]
        exact_mod_cast roundsTo_natCast (2 ^ 52)
      · decide
  have hnearest := nearest_nearestMagnitude n hb
  have hle := hedge.mono hnearest h
  rwa [Nat.le_antisymm (nearestMagnitude_le n b) hle] at hnearest

theorem twoTo_le_tenTo {a b : Nat} (h : 10 * a <= 33 * b) : twoTo a <= tenTo b := by
  have hpow : (2 ^ a) ^ 10 <= (10 ^ b) ^ 10 := calc
    (2 ^ a) ^ 10 = 2 ^ (10 * a) := by rw [← pow_mul, Nat.mul_comm]
    _ <= 2 ^ (33 * b) := Nat.pow_le_pow_right (by norm_num) h
    _ = (2 ^ 33) ^ b := pow_mul 2 33 b
    _ <= (10 ^ 10) ^ b := Nat.pow_le_pow_left (by norm_num) b
    _ = (10 ^ b) ^ 10 := pow_right_comm 10 10 b
  exact (Nat.pow_le_pow_iff_left (by norm_num)).mp hpow

theorem two_zpow_le_ten_zpow {a b : Nat} (h : twoTo a <= tenTo b) :
    (2 : Rat) ^ (a : Int) <= 10 ^ (b : Int) := by
  rw [zpow_natCast, zpow_natCast, ← cast_twoTo, ← cast_tenTo]
  exact_mod_cast h

theorem value_le_of_small (h : (d.digits.log2 : Int) + 1 + d.exponent < -330) :
    d.value <= 2 ^ (-1075 : Int) := by
  have hdigits : (d.digits : Rat) <= 10 ^ ((d.digits.log2 + 1 : Nat) : Int) := by
    have hlog : d.digits <= 10 ^ (d.digits.log2 + 1) :=
      Nat.lt_log2_self.le.trans (Nat.pow_le_pow_left (by norm_num) _)
    rw [zpow_natCast]
    exact_mod_cast hlog
  have hscale : (10 : Rat) ^ (-331 : Int) <= 2 ^ (-1075 : Int) := by
    rw [zpow_neg, zpow_neg, inv_le_inv₀ (ten_zpow_pos _) (two_zpow_pos _)]
    exact two_zpow_le_ten_zpow (twoTo_le_tenTo (by decide : 10 * 1075 <= 33 * 331))
  calc d.value <= 10 ^ ((d.digits.log2 + 1 : Nat) : Int) * 10 ^ d.exponent :=
        mul_le_mul_of_nonneg_right hdigits (ten_zpow_pos _).le
    _ = 10 ^ ((d.digits.log2 : Int) + 1 + d.exponent) := by
        rw [← zpow_add₀ (by norm_num)]
        push_cast
        rfl
    _ <= 10 ^ (-331 : Int) := zpow_le_zpow_right₀ (by norm_num) (by omega)
    _ <= 2 ^ (-1075 : Int) := hscale

theorem le_value_of_large (hdigits : d.digits ≠ 0) (h : 310 < d.exponent) :
    2 ^ (1024 : Int) <= d.value := by
  have hone : (1 : Rat) <= d.digits := by exact_mod_cast Nat.pos_of_ne_zero hdigits
  calc (2 : Rat) ^ (1024 : Int) <= 10 ^ (311 : Int) :=
        two_zpow_le_ten_zpow (twoTo_le_tenTo (by decide : 10 * 1024 <= 33 * 311))
    _ <= 10 ^ d.exponent := zpow_le_zpow_right₀ (by norm_num) (by omega)
    _ <= d.value := le_mul_of_one_le_left (ten_zpow_pos _).le hone

/-- A decimal is read as the number nearest to it. -/
theorem nearest_nearestMagnitude (d : Decimal) : Nearest d.value d.nearestMagnitude := by
  unfold nearestMagnitude
  split
  · rename_i h
    simp only [Bool.or_eq_true, decide_eq_true_eq] at h
    apply nearest_zero (value_nonneg d)
    rcases h with h | h
    · simp only [value, h, Nat.cast_zero, zero_mul]
      exact (two_zpow_pos _).le
    · exact value_le_of_small h
  · rename_i hdigits
    simp only [Bool.or_eq_true, decide_eq_true_eq, not_or] at hdigits
    split
    · rename_i h
      have hlarge := le_value_of_large hdigits.1 h
      rw [value_eq_div] at hlarge ⊢
      exact nearest_infinity (tenTo_pos _) hlarge
    · rw [value_eq_div]
      exact Binary64.nearest_nearestMagnitude _ (tenTo_pos _)

/-! ## The rationals around a number -/

/-- How far the interval around a number reaches down, in quarters of its unit: half as far as up
where the numbers below are closer together. -/
def below (x : Binary64) : Nat :=
  if x.fraction = 0 && 1 < x.field then 1 else 2

def lower (x : Binary64) : Rat :=
  x.absolute - below x / 4 * 2 ^ x.exponent

def upper (x : Binary64) : Rat :=
  x.absolute + 1 / 2 * 2 ^ x.exponent

/-- The rational lies in the interval around a number, which has its ends when the significand is
even. -/
structure Around (x : Binary64) (r : Rat) : Prop where
  low : lower x <= r
  high : r <= upper x
  ends : r = lower x ∨ r = upper x -> x.significand % 2 = 0

theorem below_cases (x : Binary64) :
    (below x = 1 ∧ x.significand = 2 ^ 52 ∧ -1074 < x.exponent) ∨
      (below x = 2 ∧ (x.exponent = -1074 ∨ x.significand ≠ 2 ^ 52)) := by
  simp only [below, significand, Binary64.exponent, twoTo_52, Bool.and_eq_true, decide_eq_true_eq]
  have hfraction : x.fraction < 4503599627370496 := Nat.mod_lt _ (by decide)
  split
  · left
    split <;> omega
  · right
    split <;> omega

/-- Seen in units of the number, the interval reaches from the significand half a unit up and half
or a quarter of a unit down. -/
theorem Around.scaled {r : Rat} (h : Around x r) :
    (x.significand : Rat) - below x / 4 <= r / 2 ^ x.exponent ∧
      r / 2 ^ x.exponent <= x.significand + 1 / 2 ∧
      (r / 2 ^ x.exponent = x.significand - below x / 4 ∨
        r / 2 ^ x.exponent = x.significand + 1 / 2 -> x.significand % 2 = 0) := by
  have hpos := two_zpow_pos x.exponent
  have hlow := h.low
  have hhigh := h.high
  have hends := h.ends
  have hlower : lower x = (x.significand - below x / 4) * 2 ^ x.exponent := by
    rw [lower, absolute]
    ring
  have hupper : upper x = (x.significand + 1 / 2) * 2 ^ x.exponent := by
    rw [upper, absolute]
    ring
  rw [hlower] at hlow hends
  rw [hupper] at hhigh hends
  rw [le_div_iff₀ hpos, div_le_iff₀ hpos, div_eq_iff hpos.ne', div_eq_iff hpos.ne']
  exact ⟨hlow, hhigh, hends⟩

theorem inBinade_of_scaled {r : Rat} (hsmall : -1074 <= e) (hhigh : r / 2 ^ e < 2 ^ 53)
    (hlow : e = -1074 ∨ 2 ^ 52 <= r / 2 ^ e) : InBinade r e := by
  have hpos := two_zpow_pos e
  constructor
  · exact hsmall
  · rw [two_zpow_add, mul_comm]
    exact (div_lt_iff₀ hpos).mp hhigh
  · apply hlow.imp_right
    intro h
    rw [two_zpow_add, mul_comm]
    exact (le_div_iff₀ hpos).mp h

/-- Every rational around a number is nearest to it. -/
theorem Around.nearest {r : Rat} (hx : x.isFinite) (h : Around x r) : Nearest r x.magnitude := by
  rcases h.scaled with ⟨hlow, hhigh, hends⟩
  have hsig : (x.significand : Rat) + 1 <= 2 ^ 53 := by exact_mod_cast significand_lt x
  have hbelow := below_cases x
  by_cases hbinade : x.exponent = -1074 ∨ 2 ^ 52 <= r / 2 ^ x.exponent
  · -- the rational has the unit of the number
    have hquarters : (below x : Rat) <= 2 := by
      have : below x <= 2 := by omega
      exact_mod_cast this
    exists x.exponent, x.significand
    constructor
    · exact inBinade_of_scaled (exponent_ge x) (by linarith) hbinade
    · constructor
      · constructor
        · linarith
        · exact hhigh
        · intro htie
          apply hends
          apply htie.imp_left
          intro heq
          linarith
      · exact min_pack_of_finite hx
  · -- the rational lies below the smallest number of the binade, where the unit is half as large
    rcases not_or.mp hbinade with ⟨hnormal, hsmall⟩
    rw [not_le] at hsmall
    have hquarters : (below x : Rat) <= 2 := by
      have : below x <= 2 := by omega
      exact_mod_cast this
    have hge := (exponent_or_significand x).resolve_left hnormal
    have hle : x.significand <= 2 ^ 52 := by
      by_contra hgt
      have : ((2 ^ 52 + 1 : Nat) : Rat) <= x.significand := by exact_mod_cast Nat.lt_of_not_le hgt
      push_cast at this
      linarith
    have heq : x.significand = 2 ^ 52 := Nat.le_antisymm hle hge
    have hone : below x = 1 := by omega
    have hdouble : r / 2 ^ (x.exponent - 1) = 2 * (r / 2 ^ x.exponent) := by
      rw [zpow_sub₀ (by norm_num), zpow_one]
      field_simp
    rw [heq, hone] at hlow
    push_cast at hlow
    exists x.exponent - 1, 2 ^ 53
    rw [hdouble]
    constructor
    · have := exponent_ge x
      apply inBinade_of_scaled (by omega)
      · rw [hdouble]
        linarith
      · right
        rw [hdouble]
        linarith
    · constructor
      · constructor
        · push_cast
          linarith
        · push_cast
          linarith
        · intro _
          rfl
      · rw [min_pack_of_finite hx, heq]
        simp only [pack, twoTo_52]
        omega

/-! ## The search for the fewest digits -/

theorem absolute_eq_div (x : Binary64) :
    x.absolute = ((interval x).value : Rat) / (interval x).denominator := by
  rw [absolute, zpow_eq_div]
  simp only [interval]
  push_cast [cast_twoTo]
  field_simp

theorem lower_eq_div (hx : 0 < x.significand) :
    lower x = ((interval x).low : Rat) / (interval x).denominator := by
  have hsub : ((4 * x.significand - below x : Nat) : Rat) = 4 * x.significand - below x := by
    have := below_cases x
    rw [Nat.cast_sub (by omega)]
    push_cast
    rfl
  have hlow : (interval x).low = (4 * x.significand - below x) * twoTo x.exponent.toNat := rfl
  rw [lower, absolute, zpow_eq_div, hlow]
  simp only [interval]
  push_cast [cast_twoTo, hsub]
  field_simp

theorem upper_eq_div (x : Binary64) :
    upper x = ((interval x).high : Rat) / (interval x).denominator := by
  rw [upper, absolute, zpow_eq_div]
  simp only [interval]
  push_cast [cast_twoTo]
  field_simp
  ring

theorem denominator_pos (x : Binary64) : 0 < (interval x).denominator :=
  Nat.mul_pos (by decide) (twoTo_pos _)

/-- An end of an interval is compared with a decimal in whole numbers. -/
theorem end_le_iff {a b k : Nat} (hb : 0 < b) :
    a * tenTo (-e).toNat <= k * tenTo e.toNat * b ↔ (a : Rat) / b <= k * 10 ^ e := by
  have hb' : (0 : Rat) < b := by exact_mod_cast hb
  have hten : (0 : Rat) < 10 ^ (-e).toNat := by positivity
  rw [zpow_eq_div, ← mul_div_assoc, div_le_div_iff₀ hb' hten, ← cast_tenTo, ← cast_tenTo]
  exact_mod_cast Iff.rfl

theorem le_end_iff {a b k : Nat} (hb : 0 < b) :
    k * tenTo e.toNat * b <= a * tenTo (-e).toNat ↔ (k : Rat) * 10 ^ e <= (a : Rat) / b := by
  have hb' : (0 : Rat) < b := by exact_mod_cast hb
  have hten : (0 : Rat) < 10 ^ (-e).toNat := by positivity
  rw [zpow_eq_div, ← mul_div_assoc, div_le_div_iff₀ hten hb', ← cast_tenTo, ← cast_tenTo]
  exact_mod_cast Iff.rfl

/-- An interval holds the decimals around its number. -/
theorem holds_iff (hx : 0 < x.significand) (k : Nat) (e : Int) :
    (interval x).holds k e ↔ Around x (k * 10 ^ e) := by
  have hden := denominator_pos x
  have hclosed : (interval x).closed = (x.significand % 2 == 0) := rfl
  have hlow := end_le_iff (a := (interval x).low) (k := k) (e := e) hden
  have hlow' := le_end_iff (a := (interval x).low) (k := k) (e := e) hden
  have hhigh := le_end_iff (a := (interval x).high) (k := k) (e := e) hden
  have hhigh' := end_le_iff (a := (interval x).high) (k := k) (e := e) hden
  rw [← lower_eq_div hx] at hlow hlow'
  rw [← upper_eq_div] at hhigh hhigh'
  simp only [Interval.holds, hclosed, beq_iff_eq]
  by_cases heven : x.significand % 2 = 0
  · simp only [heven, if_true, Bool.and_eq_true, decide_eq_true_eq, hlow, hhigh]
    constructor
    · intro h
      exact ⟨h.1, h.2, fun _ => heven⟩
    · intro h
      exact ⟨h.low, h.high⟩
  · simp only [heven, if_false, Bool.and_eq_true, decide_eq_true_eq]
    rw [← not_le, ← not_le, hlow', hhigh', not_le, not_le]
    constructor
    · intro h
      constructor
      · exact h.1.le
      · exact h.2.le
      · intro hend
        rcases hend with hend | hend
        · exact absurd hend h.1.ne'
        · exact absurd hend h.2.ne
    · intro h
      constructor
      · exact lt_of_le_of_ne h.low fun hend => heven (h.ends (Or.inl hend.symm))
      · exact lt_of_le_of_ne h.high fun hend => heven (h.ends (Or.inr hend))

/-- What is picked from a grid is a point of the grid around the number. -/
theorem around_of_pick? (hx : 0 < x.significand) (h : (interval x).pick? e = some d) :
    d.exponent = e ∧ Around x d.value := by
  have hpoint (k : Nat) (hk : (interval x).holds k e) :
      (Decimal.mk k e).exponent = e ∧ Around x (Decimal.mk k e).value :=
    ⟨rfl, (holds_iff hx k e).mp hk⟩
  simp only [Interval.pick?] at h
  split at h
  · rename_i hlow hhigh
    cases h
    split
    · exact hpoint _ hlow
    · exact hpoint _ hhigh
  · rename_i hlow hhigh
    cases h
    exact hpoint _ hlow
  · rename_i hlow hhigh
    cases h
    exact hpoint _ hhigh
  · cases h

/-- The point of a grid that a number lies at or behind. -/
def floorOn (x : Binary64) (e : Int) : Nat :=
  (interval x).value * tenTo (-e).toNat / ((interval x).denominator * tenTo e.toNat)

theorem floorOn_bounds (x : Binary64) (e : Int) :
    (floorOn x e : Rat) * 10 ^ e <= x.absolute ∧ x.absolute < (floorOn x e + 1) * 10 ^ e := by
  have hden := denominator_pos x
  have hunit : 0 < (interval x).denominator * tenTo e.toNat := Nat.mul_pos hden (tenTo_pos _)
  have hswap (k : Nat) : k * tenTo e.toNat * (interval x).denominator =
      (interval x).denominator * tenTo e.toNat * k := by
    ring
  rw [absolute_eq_div]
  constructor
  · rw [← le_end_iff hden, hswap]
    exact Nat.mul_div_le _ _
  · rw [← not_le, ← Nat.cast_succ, ← le_end_iff hden, hswap, not_le]
    exact Nat.lt_mul_div_succ _ hunit

theorem exists_pick?_of_holds
    (h : (interval x).holds (floorOn x e) e ∨ (interval x).holds (floorOn x e + 1) e) :
    exists d, (interval x).pick? e = some d := by
  rw [floorOn] at h
  simp only [Interval.pick?]
  split
  · exact ⟨_, rfl⟩
  · exact ⟨_, rfl⟩
  · exact ⟨_, rfl⟩
  · rename_i hlow hhigh
    rw [hlow, hhigh] at h
    simp at h

/-- One of the two neighbours of a number on a grid is around it, if the distance of the points is
below three quarters of the unit, or below the whole unit where the interval is symmetric. -/
theorem exists_pick? (hx : 0 < x.significand)
    (hgrid : (10 : Rat) ^ e < (below x / 4 + 1 / 2) * 2 ^ x.exponent) :
    exists d, (interval x).pick? e = some d := by
  apply exists_pick?_of_holds
  rw [holds_iff hx, holds_iff hx]
  rcases floorOn_bounds x e with ⟨hfloor, hnext⟩
  have hpos := two_zpow_pos x.exponent
  have hup : x.absolute < upper x := by
    rw [upper]
    linarith
  have hdown : lower x < x.absolute := by
    have hbelow : (0 : Rat) < below x := by
      have := below_cases x
      have : 0 < below x := by omega
      exact_mod_cast this
    rw [lower]
    have : 0 < (below x : Rat) / 4 * 2 ^ x.exponent := by positivity
    linarith
  by_cases hin : lower x < floorOn x e * 10 ^ e
  · left
    constructor
    · exact hin.le
    · exact hfloor.trans hup.le
    · intro hend
      rcases hend with hend | hend
      · exact absurd hend hin.ne'
      · exact absurd hend (lt_of_le_of_lt hfloor hup).ne
  · right
    have hbelow : ((floorOn x e + 1 : Nat) : Rat) * 10 ^ e < upper x := by
      rw [upper]
      rw [lower, not_lt] at hin
      push_cast
      linarith
    have habove : lower x < ((floorOn x e + 1 : Nat) : Rat) * 10 ^ e := by
      push_cast
      linarith
    constructor
    · exact habove.le
    · exact hbelow.le
    · intro hend
      rcases hend with hend | hend
      · exact absurd hend habove.ne'
      · exact absurd hend hbelow.ne

theorem toDigits_bounds {n : Nat} (hn : 0 < n) :
    10 ^ ((Nat.toDigits 10 n).length - 1) <= n ∧ n < 10 ^ (Nat.toDigits 10 n).length := by
  have hlength : 0 < (Nat.toDigits 10 n).length := Nat.length_toDigits_pos
  have hbase : 1 < 10 := by norm_num
  constructor
  · by_cases hone : (Nat.toDigits 10 n).length = 1
    · rw [hone]
      exact hn
    · have := Nat.length_toDigits_le_iff hbase
        (show 0 < (Nat.toDigits 10 n).length - 1 by omega) (n := n)
      omega
  · exact (Nat.length_toDigits_le_iff hbase hlength).mp le_rfl

theorem ten_zpow_sub (k l : Nat) :
    (10 : Rat) ^ ((k : Int) - (l : Int)) = (10 ^ k : Nat) / (tenTo l : Rat) := by
  rw [zpow_sub₀ (by norm_num), zpow_natCast, zpow_natCast, cast_tenTo, Nat.cast_pow,
    Nat.cast_ofNat]

/-- The first digit of a ratio stands at the place that the length of its whole part tells. -/
theorem pointPosition_bounds {n b : Nat} (hb : 0 < b) (hlow : b <= n * tenTo 400) :
    (10 : Rat) ^ (pointPosition n b - 1) <= (n : Rat) / b ∧
      (n : Rat) / b < 10 ^ pointPosition n b := by
  have hb' : (0 : Rat) < b := by exact_mod_cast hb
  have hlength : 0 < (Nat.toDigits 10 (n * tenTo 400 / b)).length := Nat.length_toDigits_pos
  rcases toDigits_bounds (Nat.div_pos hlow hb) with ⟨hdown, hup⟩
  rw [Nat.le_div_iff_mul_le hb] at hdown
  rw [Nat.div_lt_iff_lt_mul hb] at hup
  rw [pointPosition]
  generalize (Nat.toDigits 10 (n * tenTo 400 / b)).length = l at *
  have hscale : (0 : Rat) < tenTo 400 := by exact_mod_cast tenTo_pos 400
  have hshift (k : Nat) : (10 : Rat) ^ ((k : Int) - 400) = (10 ^ k : Nat) / (tenTo 400 : Rat) :=
    ten_zpow_sub k 400
  constructor
  · have hpred : (l : Int) - 400 - 1 = (l - 1 : Nat) - 400 := by omega
    rw [hpred, hshift, div_le_div_iff₀ hscale hb']
    exact_mod_cast hdown
  · rw [hshift, div_lt_div_iff₀ hb' hscale]
    exact_mod_cast hup

/-! ## What the search finds -/

theorem significand_pos (h : x.isZero = false) : 0 < x.significand := by
  have hpack := magnitude_eq_pack x
  have hor := exponent_or_significand x
  simp only [isZero, beq_eq_false_iff_ne, ne_eq] at h
  simp only [pack, twoTo_52] at hpack
  omega

def place (x : Binary64) : Int :=
  pointPosition (interval x).value (interval x).denominator

theorem place_bounds (hx : 0 < x.significand) :
    (10 : Rat) ^ (place x - 1) <= x.absolute ∧ x.absolute < 10 ^ place x := by
  rw [absolute_eq_div]
  apply pointPosition_bounds (denominator_pos x)
  have hge := exponent_ge x
  have hscale : twoTo (-x.exponent).toNat <= tenTo 400 := twoTo_le_tenTo (by omega)
  have hvalue : 4 <= (interval x).value := by
    have := Nat.mul_le_mul (show 4 <= 4 * x.significand by omega) (twoTo_pos x.exponent.toNat)
    exact this
  exact Nat.mul_le_mul hvalue hscale

/-- On the grid of 17 digits the points are close enough. -/
theorem grid_is_fine (hx : 0 < x.significand) :
    (10 : Rat) ^ (place x - 17) < (below x / 4 + 1 / 2) * 2 ^ x.exponent := by
  have hpos := two_zpow_pos x.exponent
  have hgrid : (10 : Rat) ^ (place x - 17) * 10 ^ 16 = 10 ^ (place x - 1) := by
    rw [← zpow_natCast, ← zpow_add₀ (by norm_num)]
    congr 1
    push_cast
    ring
  have hplace := (place_bounds hx).1
  rw [← hgrid, absolute] at hplace
  have hsig : (x.significand : Rat) < (below x / 4 + 1 / 2) * 10 ^ 16 := by
    rcases below_cases x with ⟨hbelow, hsig, _⟩ | ⟨hbelow, _⟩
    · rw [hbelow, hsig]
      norm_num
    · have hlt : (x.significand : Rat) < 2 ^ 53 := by exact_mod_cast significand_lt x
      rw [hbelow]
      norm_num at hlt ⊢
      linarith
  have hscaled : (10 : Rat) ^ (place x - 17) * 10 ^ 16 <
      (below x / 4 + 1 / 2) * 2 ^ x.exponent * 10 ^ 16 := by
    calc (10 : Rat) ^ (place x - 17) * 10 ^ 16 <= x.significand * 2 ^ x.exponent := hplace
      _ < (below x / 4 + 1 / 2) * 10 ^ 16 * 2 ^ x.exponent := mul_lt_mul_of_pos_right hsig hpos
      _ = (below x / 4 + 1 / 2) * 2 ^ x.exponent * 10 ^ 16 := by ring
  exact lt_of_mul_lt_mul_right hscaled (by positivity)

theorem dropZero_value (d : Decimal) : d.dropZero.value = d.value := by
  unfold dropZero
  split
  · rename_i h
    have hdigits : (d.digits : Rat) = (d.digits / 10 : Nat) * 10 := by
      have : d.digits = d.digits / 10 * 10 := by omega
      exact_mod_cast this
    rw [value, value, hdigits, zpow_add₀ (by norm_num), zpow_one]
    ring
  · rfl

theorem le_dropZero_exponent (d : Decimal) : d.exponent <= d.dropZero.exponent := by
  unfold dropZero
  split
  · exact (lt_add_one d.exponent).le
  · exact le_rfl

/-- The search ends at a grid of at most 17 digits. -/
theorem exists_shortest (h : x.isZero = false) :
    exists n d, n < 17 ∧ (interval x).pick? (place x - (n + 1 : Nat)) = some d ∧
      shortest x = d.dropZero := by
  have hx := significand_pos h
  rcases exists_pick? hx (grid_is_fine hx) with ⟨last, hlast⟩
  cases hfound : (List.range 17).findSome? fun n =>
      (interval x).pick? (place x - (n + 1 : Nat)) with
  | none =>
    rw [List.findSome?_eq_none_iff] at hfound
    cases hlast.symm.trans (hfound 16 (by simp))
  | some d =>
    have hshortest : shortest x = d.dropZero := by
      simp only [shortest, h, Bool.false_eq_true, if_false]
      rw [← place, hfound]
    rcases List.exists_of_findSome?_eq_some hfound with ⟨n, hn, hpick⟩
    exact ⟨n, d, List.mem_range.mp hn, hpick, hshortest⟩

theorem shortest_of_zero (h : x.isZero = true) : shortest x = ⟨0, 0⟩ := by
  rw [shortest, h]
  rfl

/-- The fewest digits read back. -/
theorem shortest_nearestMagnitude (hx : x.isFinite) :
    (shortest x).nearestMagnitude = x.magnitude := by
  cases h : x.isZero with
  | true =>
    rw [shortest_of_zero h]
    exact (beq_iff_eq.mp h).symm
  | false =>
    rcases exists_shortest h with ⟨n, d, _, hpick, hshortest⟩
    have haround := (around_of_pick? (significand_pos h) hpick).2
    rw [← dropZero_value, ← hshortest] at haround
    exact (nearest_nearestMagnitude _).unique (haround.nearest hx)

/-- From `10 ^ 16` on the fewest digits need no point. -/
theorem shortest_exponent_nonneg (h : (10 : Rat) ^ (16 : Int) <= x.absolute) :
    0 <= (shortest x).exponent := by
  cases hzero : x.isZero with
  | true =>
    rw [shortest_of_zero hzero]
  | false =>
    rcases exists_shortest hzero with ⟨n, d, hn, hpick, hshortest⟩
    have hx := significand_pos hzero
    have hexponent := (around_of_pick? hx hpick).1
    have hplace : (16 : Int) < place x := by
      have := lt_of_le_of_lt h (place_bounds hx).2
      exact (zpow_lt_zpow_iff_right₀ (by norm_num : (1 : Rat) < 10)).mp this
    have hdrop := le_dropZero_exponent d
    rw [hshortest]
    omega

/-- The fewest digits of a number that is not whole have a point. -/
theorem shortest_exponent_neg (hx : x.isFinite) (h : x.isWhole = false) :
    (shortest x).exponent < 0 := by
  by_contra hnat
  have hnotWhole : ¬ x.isWhole := by simp [h]
  have hvalue := value_of_nonneg (not_lt.mp hnat)
  generalize (shortest x).digits * tenTo (shortest x).exponent.toNat = n at hvalue
  have hnearest := nearest_nearestMagnitude (shortest x)
  rw [hvalue, shortest_nearestMagnitude hx] at hnearest
  by_cases hn : n <= 2 ^ 53
  · apply hnotWhole
    rw [isWhole_iff hx]
    exists n
    rw [← absolute_ofNat hn]
    apply absolute_congr
    rw [ofNat, magnitude_ofMagnitude _ (nearestMagnitude_lt_twoTo _ _)]
    exact hnearest.unique (nearest_ofNat n)
  · -- a number as large as that is whole
    have hedge : (ofNat (2 ^ 53)).isFinite := by decide
    have hmag : (ofNat (2 ^ 53)).magnitude <= x.magnitude := by
      rw [ofNat, magnitude_ofMagnitude _ (nearestMagnitude_lt_twoTo _ _)]
      apply (nearest_ofNat _).mono hnearest
      exact_mod_cast (Nat.lt_of_not_le hn).le
    have hle := (absolute_le_iff hedge hx).mpr hmag
    rw [absolute_ofNat le_rfl] at hle
    have hlt := absolute_lt_of_not_isWhole hx hnotWhole
    norm_num at hle hlt
    linarith

end Decimal
end StackScript
