import StackScript.Number.Binary64

/-!
# Decimal numbers

A `Decimal` is a natural number times a power of ten.  It stands between the
text of a number and its word: reading rounds a decimal to the nearest word, and
printing finds the decimal with the fewest digits that reads back.
-/

namespace StackScript

/-- The number `digits * 10 ^ exponent`. -/
structure Decimal where
  digits : Nat
  exponent : Int
  deriving DecidableEq, Repr

namespace Decimal

/-! ## Reading

Far outside the range of binary64 the answer does not need the power of ten, and
a text may ask for one that is too large to compute.
-/

/-- The lower 63 bits of the word nearest to a decimal. -/
def nearestMagnitude (x : Decimal) : Nat :=
  if x.digits = 0 || x.digits.log2 + 1 + x.exponent < -330 then
    0
  else if 310 < x.exponent then
    Binary64.infinityMagnitude
  else
    Binary64.nearestMagnitude (x.digits * tenTo x.exponent.toNat) (tenTo (-x.exponent).toNat)

/-- The number nearest to a decimal with a sign. -/
def round (negative : Bool) (x : Decimal) : Binary64 :=
  Binary64.ofMagnitude negative x.nearestMagnitude

/-! ## The fewest digits that read back

The reals that round to a finite number `m * 2 ^ q` form an interval around it,
which reaches half way to each neighbour and holds its ends exactly when `m` is
even.  On the grid of decimals with `n` digits the candidates are the two grid
points around the number; the first grid with a candidate in the interval wins,
then the nearer candidate, then the upper one.
-/

/-- The reals that round to a number, as numerators over one denominator. -/
structure Interval where
  low : Nat
  value : Nat
  high : Nat
  denominator : Nat
  closed : Bool

/-- The reals that round to the absolute value of a finite number. -/
def interval (x : Binary64) : Interval :=
  let m := x.significand
  let scale := twoTo x.exponent.toNat
  let below := if x.fraction = 0 && 1 < x.field then 1 else 2
  { low := (4 * m - below) * scale
    value := 4 * m * scale
    high := (4 * m + 2) * scale
    denominator := 4 * twoTo (-x.exponent).toNat
    closed := m % 2 == 0 }

/-- Whether an interval holds the decimal `d * 10 ^ e`. -/
def Interval.holds (i : Interval) (d : Nat) (e : Int) : Bool :=
  let point := d * tenTo e.toNat * i.denominator
  let unit := tenTo (-e).toNat
  if i.closed then
    i.low * unit <= point && point <= i.high * unit
  else
    i.low * unit < point && point < i.high * unit

/-- The number of digits that stand before the point of a positive ratio; negative when zeros
follow the point first. -/
def pointPosition (n d : Nat) : Int :=
  ((Nat.toDigits 10 (n * tenTo 400 / d)).length : Int) - 400

/-- The better of the two points of the grid `10 ^ e` around the value that the interval holds. -/
def Interval.pick? (i : Interval) (e : Int) : Option Decimal :=
  let d := i.value * tenTo (-e).toNat / (i.denominator * tenTo e.toNat)
  let twice := 2 * i.value * tenTo (-e).toNat
  let middle := (2 * d + 1) * (i.denominator * tenTo e.toNat)
  match i.holds d e, i.holds (d + 1) e with
  | true, true => some (if twice < middle then ⟨d, e⟩ else ⟨d + 1, e⟩)
  | true, false => some ⟨d, e⟩
  | false, true => some ⟨d + 1, e⟩
  | false, false => none

/-- Moves one trailing zero from the digits to the exponent. -/
def dropZero (x : Decimal) : Decimal :=
  if x.digits % 10 = 0 then ⟨x.digits / 10, x.exponent + 1⟩ else x

/-- The decimal with the fewest digits that rounds to the absolute value of a finite number. -/
def shortest (x : Binary64) : Decimal :=
  if x.isZero then
    ⟨0, 0⟩
  else
    let i := interval x
    let k := pointPosition i.value i.denominator
    match (List.range 17).findSome? fun n => i.pick? (k - (n + 1 : Nat)) with
    | some d => d.dropZero
    | none => ⟨0, 0⟩

/-! ## Positional text -/

def zeros (n : Nat) : List Char :=
  List.replicate n '0'

/-- The decimal written out, without an exponent. -/
def positional (x : Decimal) : String :=
  let ds := Nat.toDigits 10 x.digits
  if 0 <= x.exponent then
    String.ofList (ds ++ zeros x.exponent.toNat)
  else
    let places := (-x.exponent).toNat
    let padded := zeros (places + 1 - ds.length) ++ ds
    let whole := padded.length - places
    String.ofList (padded.take whole ++ '.' :: padded.drop whole)

end Decimal
end StackScript
