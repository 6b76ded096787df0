import StackScript.Number.Power

/-!
# Double-precision numbers

A `Binary64` is a word of 64 bits read as an IEEE 754 binary64 datum: a sign, an
11-bit exponent field and a 52-bit fraction.  Keeping the word itself means that
two numbers are the same exactly when their bits are, which is what the binary
code format stores.

Order, conversion from integers and truncation are computed on the word in exact
integer arithmetic.  Only the four arithmetic operations go through `Float`.
-/

namespace StackScript

/-- A binary64 datum, kept as its word. -/
structure Binary64 where
  bits : UInt64
  deriving DecidableEq, Inhabited, Repr

namespace Binary64

/-! ## The parts of a word -/

def ofMagnitude (negative : Bool) (magnitude : Nat) : Binary64 :=
  ⟨UInt64.ofNat (if negative then magnitude + twoTo 63 else magnitude)⟩

/-- The lower 63 bits: everything but the sign. -/
def magnitude (x : Binary64) : Nat :=
  x.bits.toNat % twoTo 63

def isNegative (x : Binary64) : Bool :=
  twoTo 63 <= x.bits.toNat

def field (x : Binary64) : Nat :=
  x.magnitude / twoTo 52

def fraction (x : Binary64) : Nat :=
  x.magnitude % twoTo 52

def infinityMagnitude : Nat :=
  2047 * twoTo 52

def isFinite (x : Binary64) : Bool :=
  x.magnitude < infinityMagnitude

def isNaN (x : Binary64) : Bool :=
  infinityMagnitude < x.magnitude

def isZero (x : Binary64) : Bool :=
  x.magnitude == 0

/-- The integer `m` such that the absolute value of a finite number is `m * 2 ^ x.exponent`. -/
def significand (x : Binary64) : Nat :=
  if x.field = 0 then x.fraction else twoTo 52 + x.fraction

def exponent (x : Binary64) : Int :=
  (max x.field 1 : Nat) - 1075

def zero : Binary64 :=
  ofMagnitude false 0

def infinity (negative : Bool) : Binary64 :=
  ofMagnitude negative infinityMagnitude

def nan (negative : Bool) : Binary64 :=
  ofMagnitude negative (infinityMagnitude + twoTo 51)

/-! ## Order

Positive and negative zero are the same number, and a NaN has no place in the
order.  For the rest the lower 63 bits grow with the absolute value.
-/

/-- The place of a datum in the order, if it is not a NaN. -/
def rank (x : Binary64) : Int :=
  if x.isNegative then -(x.magnitude : Int) else x.magnitude

/-- The order of two numbers; `none` when one of them is a NaN. -/
def compare? (x y : Binary64) : Option Ordering :=
  if x.isNaN || y.isNaN then none else some (compare x.rank y.rank)

/-- Equality of numbers: false for a NaN, true for two zeros. -/
def equal (x y : Binary64) : Bool :=
  x.compare? y == some .eq

/-! ## Rounding -/

/-- The quotient of two natural numbers, to the nearest integer, a half to the even one. -/
def roundHalfEven (n d : Nat) : Nat :=
  let q := n / d
  let twice := 2 * (n % d)
  if twice > d || (twice == d && q % 2 == 1) then q + 1 else q

/-- The exponent `e` with `2 ^ e <= n / d < 2 ^ (e + 1)`, for positive `n` and `d`. -/
def ratioExponent (n d : Nat) : Int :=
  let e : Int := (n.log2 : Int) - d.log2
  let below := if 0 <= e then n < d * twoTo e.toNat else n * twoTo (-e).toNat < d
  if below then e - 1 else e

/-- The lower 63 bits of the number nearest to `n / d`, ties to the even significand. -/
def nearestMagnitude (n d : Nat) : Nat :=
  if n = 0 then
    0
  else
    let shift : Int := max (ratioExponent n d - 52) (-1074)
    let m := roundHalfEven (n * twoTo (-shift).toNat) (d * twoTo shift.toNat)
    min ((shift + 1074).toNat * twoTo 52 + m) infinityMagnitude

def ofInt (i : Int) : Binary64 :=
  ofMagnitude (decide (i < 0)) (nearestMagnitude i.natAbs 1)

def ofInt64 (n : Int64) : Binary64 :=
  ofInt n.toInt

/-! ## Whole parts -/

/-- The absolute value of a finite number, cut off at the point. -/
def wholePart (x : Binary64) : Nat :=
  x.significand * twoTo x.exponent.toNat / twoTo (-x.exponent).toNat

def isWhole (x : Binary64) : Bool :=
  x.isFinite && x.significand % twoTo (-x.exponent).toNat == 0

/-- A finite number, cut off toward zero. -/
def truncate (x : Binary64) : Int :=
  if x.isNegative then -(x.wholePart : Int) else x.wholePart

/-- The 64-bit integer a number is cut off to, when it is finite and in range. -/
def toInt64? (x : Binary64) : Option Int64 :=
  if x.isFinite && Int64.minValue.toInt <= x.truncate &&
      x.truncate <= Int64.maxValue.toInt then
    some (Int64.ofInt x.truncate)
  else
    none

/-! ## Arithmetic -/

def toFloat (x : Binary64) : Float :=
  Float.ofBits x.bits

def ofFloat (f : Float) : Binary64 :=
  ⟨f.toBits⟩

/-- The sum, correctly rounded. -/
def add (x y : Binary64) : Binary64 :=
  ofFloat (x.toFloat + y.toFloat)

def sub (x y : Binary64) : Binary64 :=
  ofFloat (x.toFloat - y.toFloat)

def mul (x y : Binary64) : Binary64 :=
  ofFloat (x.toFloat * y.toFloat)

def div (x y : Binary64) : Binary64 :=
  ofFloat (x.toFloat / y.toFloat)

def neg (x : Binary64) : Binary64 :=
  ofMagnitude (!x.isNegative) x.magnitude

end Binary64
end StackScript
