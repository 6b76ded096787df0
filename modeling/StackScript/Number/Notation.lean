import StackScript.Number.Decimal

/-!
# Numbers as text

Integers are written in decimal with an optional sign.  Floats are read from
digits with an optional point and an optional exponent, or from the names of an
infinity or of a NaN in any case.  An exponent stops growing at a bound far
outside the range of floats.  Floats are written with the fewest digits that read
back and never with an exponent.
-/

namespace StackScript
namespace Notation

/-! ## Reading -/

def digitValue (c : Char) : Nat :=
  c.toNat - '0'.toNat

/-- The number that a list of decimal digits denotes, after the digits already read. -/
def natOfDigits (acc : Nat) (cs : List Char) : Nat :=
  cs.foldl (fun n c => 10 * n + digitValue c) acc

/-- Digits already read count ten times as much for each digit that follows. -/
theorem natOfDigits_eq_add (acc : Nat) (cs : List Char) :
    natOfDigits acc cs = acc * tenTo cs.length + natOfDigits 0 cs := by
  induction cs generalizing acc with
  | nil => simp [natOfDigits, tenTo]
  | cons c cs ih =>
    have step (a : Nat) : natOfDigits a (c :: cs) = natOfDigits (10 * a + digitValue c) cs := rfl
    rw [step, step, ih, ih (10 * 0 + digitValue c), List.length_cons, tenTo_succ]
    grind

/-- The digits of a list read one after another are those of its parts. -/
theorem natOfDigits_append (acc : Nat) (cs ds : List Char) :
    natOfDigits acc (cs ++ ds) = natOfDigits (natOfDigits acc cs) ds :=
  List.foldl_append

/-- The number that a list of decimal digits denotes, read from its two halves down to a
depth. -/
def natOfHalves : Nat -> List Char -> Nat
  | 0, cs => natOfDigits 0 cs
  | depth + 1, cs =>
    let front := cs.take (cs.length / 2)
    let back := cs.drop (cs.length / 2)
    natOfHalves depth front * tenTo back.length + natOfHalves depth back

/-- Reading by halves gives the same number at every depth. -/
theorem natOfHalves_eq (depth : Nat) (cs : List Char) :
    natOfHalves depth cs = natOfDigits 0 cs := by
  induction depth generalizing cs with
  | zero => rfl
  | succ depth ih =>
    rw [natOfHalves, ih, ih, ← natOfDigits_eq_add, ← natOfDigits_append, List.take_append_drop]

/-- The number that a list of decimal digits denotes.  A long list is read by halves: that takes
a few large products in place of a small one for each digit. -/
def natOfNumeral (cs : List Char) : Nat :=
  natOfHalves (cs.length / 64).log2 cs

/-- A numeral denotes the number of its digits. -/
theorem natOfNumeral_eq (cs : List Char) : natOfNumeral cs = natOfDigits 0 cs :=
  natOfHalves_eq _ cs

def hexValue (c : Char) : Nat :=
  if c.isDigit then c.toNat - '0'.toNat
  else if c.isUpper then c.toNat - 'A'.toNat + 10
  else c.toNat - 'a'.toNat + 10

def natOfHexDigits (cs : List Char) : Nat :=
  cs.foldl (fun n c => 16 * n + hexValue c) 0

def int64? (i : Int) : Option Int64 :=
  if Int64.minValue.toInt <= i && i <= Int64.maxValue.toInt then some (Int64.ofInt i) else none

/-- Splits off a sign; the first part says whether it is a minus. -/
def splitSign : List Char -> Bool × List Char
  | '-' :: cs => (true, cs)
  | '+' :: cs => (false, cs)
  | cs => (false, cs)

/-- A 64-bit integer in decimal: an optional sign and at least one digit. -/
def readInt? (s : String) : Option Int64 :=
  let (negative, cs) := splitSign s.toList
  if cs.isEmpty || !cs.all Char.isDigit then
    none
  else
    let n : Int := natOfNumeral cs
    int64? (if negative then -n else n)

/-- An exponent that has reached this bound takes no further digits. -/
def exponentBound : Nat :=
  0x10000

def exponentStep (n : Nat) (c : Char) : Nat :=
  if n < exponentBound then 10 * n + digitValue c else n

/-- The exponent that a sign and decimal digits denote. -/
def exponentOf (negative : Bool) (cs : List Char) : Int :=
  let n := cs.foldl exponentStep 0
  if negative then -(n : Int) else n

/-- The exponent after its mark: an optional sign and digits to the end of the text. -/
def readExponent? (cs : List Char) : Option Int :=
  let (negative, ds) := splitSign cs
  if ds.isEmpty || !ds.all Char.isDigit then
    none
  else
    some (exponentOf negative ds)

/-- The decimal that whole digits, fraction digits and an exponent denote. -/
def decimalOf (whole fraction : List Char) (exponent : Int) : Decimal :=
  ⟨natOfNumeral (whole ++ fraction), exponent - fraction.length⟩

/-- An unsigned decimal number that takes up the whole text. -/
def readDecimal? (cs : List Char) : Option Decimal :=
  let whole := cs.takeWhile Char.isDigit
  let rest := cs.dropWhile Char.isDigit
  let (fraction, rest) :=
    match rest with
    | '.' :: rest => (rest.takeWhile Char.isDigit, rest.dropWhile Char.isDigit)
    | rest => ([], rest)
  if whole.isEmpty && fraction.isEmpty then
    none
  else
    match rest with
    | [] => some (decimalOf whole fraction 0)
    | c :: rest =>
      if c == 'e' || c == 'E' then
        (readExponent? rest).map (decimalOf whole fraction)
      else
        none

/-- A float: an optional sign, then a decimal number or the name of a special datum. -/
def readFloat? (s : String) : Option Binary64 :=
  let (negative, cs) := splitSign s.toList
  let name := String.ofList (cs.map Char.toLower)
  if name == "inf" || name == "infinity" then
    some (Binary64.infinity negative)
  else if name == "nan" then
    some (Binary64.nan negative)
  else
    (readDecimal? cs).map (Decimal.round negative)

/-! ## Writing -/

def signText (x : Binary64) : String :=
  if x.isNegative then "-" else ""

/-- The fewest digits that read back, without an exponent and without a needless point. -/
def plainText (x : Binary64) : String :=
  if x.isNaN then "NaN"
  else if !x.isFinite then signText x ++ "inf"
  else signText x ++ (Decimal.shortest x).positional

/-- Whole numbers below this bound are written with one decimal place. -/
def wholeBound : Nat :=
  tenTo 16

/-- The text of a float value: a whole number keeps one decimal place, as long as it is small. -/
def floatText (x : Binary64) : String :=
  if x.isWhole && x.wholePart < wholeBound then
    signText x ++ toString x.wholePart ++ ".0"
  else
    plainText x

end Notation
end StackScript
