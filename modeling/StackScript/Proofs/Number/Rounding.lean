import Mathlib.Algebra.Order.Field.Basic
import Mathlib.Algebra.Order.Field.Power
import Mathlib.Algebra.Order.Ring.Rat
import Mathlib.Tactic.FieldSimp
import Mathlib.Tactic.Linarith
import Mathlib.Tactic.NormNum
import Mathlib.Tactic.Positivity
import Mathlib.Tactic.Ring
import StackScript.Number.Decimal

/-!
# Rounding to the nearest number

The computation on words works with quotients of natural numbers and with shifts.  Here it is
compared with rationals: the numbers of one binade are the multiples of a power of two, its unit,
and a rational of the binade goes to the nearest multiple, half way to the even one.  From this
follow the two facts that everything later rests on: rounding keeps the order, and each number is
the result for the rationals around it.
-/

namespace StackScript

theorem cast_twoTo (n : Nat) : (twoTo n : Rat) = 2 ^ n := by
  simp [twoTo]

theorem cast_tenTo (n : Nat) : (tenTo n : Rat) = 10 ^ n := by
  simp [tenTo]

/-- A power with an integer exponent is a quotient of two powers, one of which is trivial. -/
theorem zpow_eq_div (b : Rat) (e : Int) : b ^ e = b ^ e.toNat / b ^ (-e).toNat := by
  rcases le_total 0 e with he | he
  · have hneg : (-e).toNat = 0 := by omega
    rw [hneg, pow_zero, div_one, ← zpow_natCast, Int.toNat_of_nonneg he]
  · have hpos : e.toNat = 0 := by omega
    have hcast : ((-e).toNat : Int) = -e := Int.toNat_of_nonneg (by omega)
    rw [hpos, pow_zero, one_div, ← zpow_natCast, hcast, zpow_neg, inv_inv]

theorem two_zpow_add (a b : Int) : (2 : Rat) ^ (a + b) = 2 ^ a * 2 ^ b :=
  zpow_add₀ (by norm_num) a b

theorem two_zpow_pos (e : Int) : (0 : Rat) < 2 ^ e :=
  zpow_pos (by norm_num) e

namespace Binary64

/-! ## Rounding to an integer -/

/-- The integer is the nearest one to a rational, and half way between two the even one. -/
structure RoundsTo (r : Rat) (k : Nat) : Prop where
  low : (k : Rat) - 1 / 2 <= r
  high : r <= k + 1 / 2
  tie : r = k - 1 / 2 ∨ r = k + 1 / 2 -> k % 2 = 0

theorem roundsTo_natCast (k : Nat) : RoundsTo k k := by
  constructor
  · linarith
  · linarith
  · intro h
    rcases h with h | h <;> linarith

theorem RoundsTo.mono {r s : Rat} {j k : Nat} (hr : RoundsTo r j) (hs : RoundsTo s k)
    (h : r <= s) : j <= k := by
  by_contra hlt
  have hstep : (k : Rat) + 1 <= j := by exact_mod_cast Nat.lt_of_not_le hlt
  have hlow := hr.low
  have hhigh := hs.high
  -- both rationals are the middle of two neighbours, which are then both even
  have hj : j % 2 = 0 := hr.tie (Or.inl (by linarith))
  have hk : k % 2 = 0 := hs.tie (Or.inr (by linarith))
  have hnext : (j : Rat) = k + 1 := by linarith
  have hnext' : j = k + 1 := by exact_mod_cast hnext
  omega

theorem RoundsTo.unique {r : Rat} {j k : Nat} (hj : RoundsTo r j) (hk : RoundsTo r k) : j = k :=
  Nat.le_antisymm (hj.mono hk le_rfl) (hk.mono hj le_rfl)

/-- A quotient is its whole part and what the remainder leaves. -/
theorem cast_div_eq (n : Nat) {d : Nat} (hd : 0 < d) :
    (n : Rat) / d = (n / d : Nat) + (n % d : Nat) / (d : Rat) := by
  have hd' : (d : Rat) ≠ 0 := by exact_mod_cast hd.ne'
  have hdiv : ((d * (n / d) + n % d : Nat) : Rat) = n := by rw [Nat.div_add_mod]
  push_cast at hdiv
  field_simp
  linarith

theorem roundsTo_roundHalfEven (n : Nat) {d : Nat} (hd : 0 < d) :
    RoundsTo ((n : Rat) / d) (roundHalfEven n d) := by
  have hd' : (0 : Rat) < d := by exact_mod_cast hd
  have hrest : 0 <= ((n % d : Nat) : Rat) / d := by positivity
  have hrest' : ((n % d : Nat) : Rat) / d < 1 := by
    rw [div_lt_one hd']
    exact_mod_cast Nat.mod_lt n hd
  have hle : 2 * (n % d) <= d -> ((n % d : Nat) : Rat) / d <= 1 / 2 := by
    intro h
    rw [div_le_div_iff₀ hd' (by norm_num)]
    have : ((2 * (n % d) : Nat) : Rat) <= d := by exact_mod_cast h
    push_cast at this
    linarith
  have hge : d <= 2 * (n % d) -> 1 / 2 <= ((n % d : Nat) : Rat) / d := by
    intro h
    rw [div_le_div_iff₀ (by norm_num) hd']
    have : (d : Rat) <= (2 * (n % d) : Nat) := by exact_mod_cast h
    push_cast at this
    linarith
  have heq : ((n % d : Nat) : Rat) / d = 1 / 2 -> 2 * (n % d) = d := by
    intro h
    rw [div_eq_div_iff hd'.ne' (by norm_num)] at h
    have : ((2 * (n % d) : Nat) : Rat) = d := by
      push_cast
      linarith
    exact_mod_cast this
  rw [cast_div_eq n hd]
  simp only [roundHalfEven, Bool.or_eq_true, Bool.and_eq_true, decide_eq_true_eq, beq_iff_eq]
  split
  · rename_i h
    have hup := hge (by omega)
    constructor
    · push_cast
      linarith
    · push_cast
      linarith
    · intro htie
      have hhalf := heq (by push_cast at htie; rcases htie with htie | htie <;> linarith)
      omega
  · rename_i h
    have hdown := hle (by omega)
    constructor
    · linarith
    · linarith
    · intro htie
      have hhalf := heq (by rcases htie with htie | htie <;> linarith)
      omega

/-! ## The binade of a rational -/

theorem log2_bounds {n : Nat} (hn : 0 < n) :
    (2 : Rat) ^ (n.log2 : Int) <= n ∧ (n : Rat) < 2 ^ (n.log2 : Int) * 2 := by
  rw [zpow_natCast, ← pow_succ]
  constructor
  · exact_mod_cast Nat.log2_self_le hn.ne'
  · exact_mod_cast Nat.lt_log2_self

/-- The comparison that corrects the exponent found from the bit lengths. -/
theorem lt_two_zpow_iff (n : Nat) {d : Nat} (hd : 0 < d) (e : Int) :
    (if 0 <= e then n < d * twoTo e.toNat else n * twoTo (-e).toNat < d) ↔
      (n : Rat) / d < 2 ^ e := by
  have hd' : (0 : Rat) < d := by exact_mod_cast hd
  have hpow (k : Nat) : (0 : Rat) < 2 ^ k := by positivity
  rw [div_lt_iff₀ hd', zpow_eq_div, div_mul_eq_mul_div, lt_div_iff₀ (hpow _), ← cast_twoTo,
    ← cast_twoTo]
  split
  · rename_i he
    have hzero : (-e).toNat = 0 := by omega
    rw [hzero, mul_comm d]
    simp only [twoTo]
    norm_cast
    simp
  · rename_i he
    have hzero : e.toNat = 0 := by omega
    rw [hzero]
    simp only [twoTo]
    norm_cast
    simp

theorem ratioExponent_bounds {n d : Nat} (hn : 0 < n) (hd : 0 < d) :
    (2 : Rat) ^ ratioExponent n d <= (n : Rat) / d ∧
      (n : Rat) / d < 2 ^ (ratioExponent n d + 1) := by
  have hd' : (0 : Rat) < d := by exact_mod_cast hd
  rcases log2_bounds hn with ⟨hn1, hn2⟩
  rcases log2_bounds hd with ⟨hd1, hd2⟩
  -- the bit lengths alone give the exponent up to one
  have hupper : (n : Rat) / d < 2 ^ ((n.log2 : Int) - d.log2 + 1) := by
    rw [two_zpow_add, zpow_sub₀ (by norm_num), zpow_one, div_mul_eq_mul_div,
      div_lt_div_iff₀ hd' (two_zpow_pos _)]
    have := two_zpow_pos d.log2
    have := two_zpow_pos n.log2
    nlinarith
  have hlower : (2 : Rat) ^ ((n.log2 : Int) - d.log2 - 1) <= (n : Rat) / d := by
    rw [zpow_sub₀ (by norm_num), zpow_sub₀ (by norm_num), zpow_one, div_div,
      div_le_div_iff₀ (by positivity) hd']
    have := two_zpow_pos d.log2
    have := two_zpow_pos n.log2
    nlinarith
  simp only [ratioExponent, lt_two_zpow_iff n hd]
  split
  · rename_i h
    rw [sub_add_cancel]
    exact ⟨hlower, h⟩
  · rename_i h
    exact ⟨le_of_not_gt h, hupper⟩

/-- The numbers of one binade are the multiples of its unit, which is at least the unit of the
subnormal numbers. -/
structure InBinade (r : Rat) (unit : Int) : Prop where
  smallest : -1074 <= unit
  high : r < 2 ^ (unit + 53)
  low : unit = -1074 ∨ 2 ^ (unit + 52) <= r

theorem InBinade.mono {r s : Rat} {u v : Int} (hr : InBinade r u) (hs : InBinade s v)
    (h : r <= s) : u <= v := by
  rcases hr.low with hu | hu
  · rw [hu]
    exact hs.smallest
  · have hpow : (2 : Rat) ^ (u + 52) < 2 ^ (v + 53) := lt_of_le_of_lt (hu.trans h) hs.high
    have := (zpow_lt_zpow_iff_right₀ (by norm_num : (1 : Rat) < 2)).mp hpow
    omega

/-! ## The nearest number -/

/-- The lower 63 bits of the number that is `m` times a unit. -/
def pack (unit : Int) (m : Nat) : Nat :=
  (unit + 1074).toNat * twoTo 52 + m

/-- The lower 63 bits are those of the number nearest to a rational, or of an infinity. -/
def Nearest (r : Rat) (magnitude : Nat) : Prop :=
  exists unit m, InBinade r unit ∧ RoundsTo (r / 2 ^ unit) m ∧
    magnitude = min (pack unit m) infinityMagnitude

theorem twoTo_52 : twoTo 52 = 4503599627370496 :=
  rfl

/-- In a binade above the subnormal numbers a rational goes to one of the upper half of the
significands, or just above. -/
theorem InBinade.significand_bounds {r : Rat} {unit : Int} {m : Nat} (h : InBinade r unit)
    (hm : RoundsTo (r / 2 ^ unit) m) :
    m <= 2 ^ 53 ∧ (unit = -1074 ∨ 2 ^ 52 <= m) := by
  have hpos := two_zpow_pos unit
  constructor
  · have hle : r / 2 ^ unit <= ((2 ^ 53 : Nat) : Rat) := by
      rw [div_le_iff₀ hpos]
      have := h.high.le
      rw [two_zpow_add] at this
      norm_num at this ⊢
      linarith
    exact hm.mono (roundsTo_natCast _) hle
  · apply h.low.imp_right
    intro hlow
    have hle : ((2 ^ 52 : Nat) : Rat) <= r / 2 ^ unit := by
      rw [le_div_iff₀ hpos]
      rw [two_zpow_add] at hlow
      norm_num at hlow ⊢
      linarith
    exact (roundsTo_natCast _).mono hm hle

/-- Rounding keeps the order. -/
theorem Nearest.mono {r s : Rat} {x y : Nat} (hr : Nearest r x) (hs : Nearest s y)
    (h : r <= s) : x <= y := by
  rcases hr with ⟨u, j, hu, hj, rfl⟩
  rcases hs with ⟨v, k, hv, hk, rfl⟩
  apply min_le_min_right
  have hunit := hu.mono hv h
  have hj' := hu.significand_bounds hj
  have hk' := hv.significand_bounds hk
  simp only [pack, twoTo_52]
  rcases hunit.eq_or_lt with rfl | hlt
  · have hle : j <= k := by
      apply hj.mono hk
      exact div_le_div_of_nonneg_right h (two_zpow_pos u).le
    omega
  · have := hu.smallest
    omega

theorem Nearest.unique {r : Rat} {x y : Nat} (hx : Nearest r x) (hy : Nearest r y) : x = y :=
  Nat.le_antisymm (hx.mono hy le_rfl) (hy.mono hx le_rfl)

/-- What the computation on quotients and shifts finds is the nearest number. -/
theorem nearest_nearestMagnitude (n : Nat) {d : Nat} (hd : 0 < d) :
    Nearest ((n : Rat) / d) (nearestMagnitude n d) := by
  unfold nearestMagnitude
  split
  · rename_i hn
    subst hn
    exists -1074, 0
    constructor
    · constructor
      · exact le_rfl
      · simp only [Nat.cast_zero, zero_div]
        positivity
      · exact Or.inl rfl
    · constructor
      · simpa using roundsTo_natCast 0
      · rfl
  · rename_i hn
    rcases ratioExponent_bounds (Nat.pos_of_ne_zero hn) hd with ⟨hlow, hhigh⟩
    exists max (ratioExponent n d - 52) (-1074)
    generalize hunit : max (ratioExponent n d - 52) (-1074) = unit
    exists roundHalfEven (n * twoTo (-unit).toNat) (d * twoTo unit.toNat)
    constructor
    · constructor
      · omega
      · apply lt_of_lt_of_le hhigh
        apply zpow_le_zpow_right₀ (by norm_num)
        omega
      · rcases max_choice (ratioExponent n d - 52) (-1074) with h | h
        · right
          have : unit + 52 = ratioExponent n d := by omega
          rw [this]
          exact hlow
        · left
          omega
    · constructor
      · have hscaled : (n : Rat) / d / 2 ^ unit =
            ((n * twoTo (-unit).toNat : Nat) : Rat) / ((d * twoTo unit.toNat : Nat) : Rat) := by
          rw [zpow_eq_div]
          push_cast [cast_twoTo]
          field_simp
        rw [hscaled]
        exact roundsTo_roundHalfEven _ (Nat.mul_pos hd (twoTo_pos _))
      · rfl

end Binary64
end StackScript
