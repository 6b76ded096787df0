import Mathlib.Data.List.TakeWhile
import StackScript.Proofs.Number.Integer
import StackScript.Proofs.Source.Word
import StackScript.Value.Collection

/-!
# Texts as integers

A text of decimal digits is first read as a 64-bit integer.  One that is out of range is read as a
float after that, and a float is cut off to an integer when it is in range.  So the answer is the
integer in the text or nothing, unless the float has moved into the range.
-/

namespace StackScript

/-! ## Trimming -/

namespace Text

theorem dropWhile_eq_self {p : Char -> Bool} {cs : List Char}
    (h : forall c, c ∈ cs -> p c = false) : cs.dropWhile p = cs := by
  cases cs with
  | nil => rfl
  | cons c cs => simp [h c (by simp)]

/-- Blanks around characters that are none are trimmed. -/
theorem trim_surrounded {s : String} {before cs after : List Char}
    (hs : s.toList = before ++ (cs ++ after)) (hbefore : forall c, c ∈ before -> isBlank c)
    (hafter : forall c, c ∈ after -> isBlank c) (hne : cs ≠ [])
    (hcs : forall c, c ∈ cs -> isBlank c = false) : trim s = String.ofList cs := by
  have hstart : trimStart s.toList = cs ++ after := by
    rw [trimStart, hs, List.dropWhile_append_of_pos hbefore]
    cases cs with
    | nil => exact absurd rfl hne
    | cons c cs => simp [hcs c (by simp)]
  have hback : forall c, c ∈ after.reverse -> isBlank c := by
    intro c hc
    exact hafter c (List.mem_reverse.mp hc)
  have hback' : forall c, c ∈ cs.reverse -> isBlank c = false := by
    intro c hc
    exact hcs c (List.mem_reverse.mp hc)
  rw [trim, hstart, trimEnd, List.reverse_append, List.dropWhile_append_of_pos hback,
    dropWhile_eq_self hback', List.reverse_reverse]

end Text

/-! ## Decimal digits as numbers -/

namespace Notation

/-- An integer in decimal: perhaps a minus, then digits. -/
structure IntegerText where
  negative : Bool
  digits : List Char
  digits_ne_nil : digits ≠ []
  digits_isDigit : forall c, c ∈ digits -> c.isDigit

namespace IntegerText

def size (d : IntegerText) : Nat :=
  Nat.ofDigitChars 10 d.digits 0

def value (d : IntegerText) : Int :=
  if d.negative then -d.size else d.size

def chars (d : IntegerText) : List Char :=
  if d.negative then '-' :: d.digits else d.digits

variable (d : IntegerText)

theorem natOfNumeral_digits : natOfNumeral d.digits = d.size := by
  rw [natOfNumeral_eq]
  rfl

theorem not_isBlank_of_isDigit {c : Char} (h : c.isDigit) : Text.isBlank c = false := by
  have := Lexer.isDigit_iff.mp h
  simp only [Text.isBlank, Bool.or_eq_false_iff, Bool.and_eq_false_iff, decide_eq_false_iff_not,
    beq_eq_false_iff_ne, ne_eq]
  omega

theorem chars_ne_nil : d.chars ≠ [] := by
  rw [chars]
  split
  · exact List.cons_ne_nil _ _
  · exact d.digits_ne_nil

theorem not_isBlank_of_mem {c : Char} (h : c ∈ d.chars) : Text.isBlank c = false := by
  rw [chars] at h
  split at h
  · rcases List.mem_cons.mp h with rfl | hc
    · decide
    · exact not_isBlank_of_isDigit (d.digits_isDigit c hc)
  · exact not_isBlank_of_isDigit (d.digits_isDigit c h)

theorem splitSign_chars : splitSign d.chars = (d.negative, d.digits) := by
  rw [chars]
  split
  · rename_i h
    rw [h]
    rfl
  · rename_i h
    rw [Bool.not_eq_true] at h
    rw [h]
    have hall := d.digits_isDigit
    unfold splitSign
    split
    · rename_i cs heq
      rw [heq] at hall
      cases hall '-' (by simp)
    · rename_i cs heq
      rw [heq] at hall
      cases hall '+' (by simp)
    · rfl

/-- Digits are read as a 64-bit integer when they denote one. -/
theorem readInt?_chars : readInt? (String.ofList d.chars) = int64? d.value := by
  have hall : d.digits.all Char.isDigit := List.all_eq_true.mpr d.digits_isDigit
  simp only [readInt?, String.toList_ofList, d.splitSign_chars, d.natOfNumeral_digits]
  simp [d.digits_ne_nil, hall, value]

theorem readDecimal?_digits : readDecimal? d.digits = some ⟨d.size, 0⟩ := by
  have htake : d.digits.takeWhile Char.isDigit = d.digits :=
    List.takeWhile_eq_self_iff.mpr d.digits_isDigit
  have hdrop : d.digits.dropWhile Char.isDigit = [] :=
    List.dropWhile_eq_nil_iff.mpr d.digits_isDigit
  simp [readDecimal?, htake, hdrop, d.digits_ne_nil, decimalOf, d.natOfNumeral_digits]

theorem toLower_of_isDigit {c : Char} (h : c.isDigit) : c.toLower = c := by
  have hrange := Lexer.isDigit_iff.mp h
  apply dif_neg
  simp only [ge_iff_le, UInt32.le_iff_toNat_le, not_and]
  intro hle
  have : (65 : Nat) <= c.toNat := hle
  omega

/-- Digits are not the name of an infinity or of a NaN. -/
theorem digits_ne_name {name : String} (hname : name.toList.all fun c => !c.isDigit) :
    String.ofList (d.digits.map Char.toLower) ≠ name := by
  intro h
  rcases List.exists_mem_of_ne_nil d.digits d.digits_ne_nil with ⟨c, hc⟩
  have hdigit := d.digits_isDigit c hc
  have hmem : c ∈ name.toList := by
    rw [← h, String.toList_ofList, ← toLower_of_isDigit hdigit]
    exact List.mem_map_of_mem hc
  have hother := List.all_eq_true.mp hname c hmem
  rw [hdigit] at hother
  cases hother

theorem nearestMagnitude_whole (n : Nat) :
    Decimal.nearestMagnitude ⟨n, 0⟩ = Binary64.nearestMagnitude n 1 := by
  by_cases hn : n = 0
  · subst hn
    rfl
  · have hlog : ¬ ((n.log2 : Int) + 1 < -330) := by omega
    simp [Decimal.nearestMagnitude, hn, hlog, tenTo]

/-- Digits are read as the float nearest to the integer. -/
theorem readFloat?_chars : readFloat? (String.ofList d.chars) =
    some (Binary64.ofMagnitude d.negative (Binary64.nearestMagnitude d.size 1)) := by
  have hinf : String.ofList (d.digits.map Char.toLower) ≠ "inf" := d.digits_ne_name (by decide)
  have hinfinity : String.ofList (d.digits.map Char.toLower) ≠ "infinity" :=
    d.digits_ne_name (by decide)
  have hnan : String.ofList (d.digits.map Char.toLower) ≠ "nan" := d.digits_ne_name (by decide)
  simp only [readFloat?, String.toList_ofList, d.splitSign_chars, d.readDecimal?_digits]
  simp [hinf, hinfinity, hnan, Decimal.round, nearestMagnitude_whole]

end IntegerText
end Notation

/-! ## The cast -/

namespace Value

/-- The text is an integer in decimal with blanks around it. -/
def IsDecimalOf (s : String) (z : Int) : Prop :=
  exists (d : Notation.IntegerText) (before after : List Char), d.value = z ∧
    s.toList = before ++ (d.chars ++ after) ∧ (forall c, c ∈ before -> Text.isBlank c) ∧
    (forall c, c ∈ after -> Text.isBlank c)

/-- What the text of an integer is cast to: the integer itself when it is in range, the smallest
integer when that is the nearest number to one below the range, and nothing else. -/
def castOf (z : Int) : Value :=
  if -2 ^ 63 <= z ∧ z < 2 ^ 63 then .integer (Int64.ofInt z)
  else if -2 ^ 63 - 1024 <= z ∧ z < 0 then .integer Int64.minValue
  else .none

theorem int64?_in_range {z : Int} (h : -2 ^ 63 <= z ∧ z < 2 ^ 63) :
    Notation.int64? z = some (Int64.ofInt z) := by
  have hmin : Int64.minValue.toInt = -2 ^ 63 := rfl
  have hmax : Int64.maxValue.toInt = 2 ^ 63 - 1 := rfl
  rw [Notation.int64?, if_pos]
  simp only [hmin, hmax, Bool.and_eq_true, decide_eq_true_eq]
  omega

theorem int64?_out_of_range {z : Int} (h : ¬ (-2 ^ 63 <= z ∧ z < 2 ^ 63)) :
    Notation.int64? z = Option.none := by
  have hmin : Int64.minValue.toInt = -2 ^ 63 := rfl
  have hmax : Int64.maxValue.toInt = 2 ^ 63 - 1 := rfl
  rw [Notation.int64?, if_neg]
  simp only [hmin, hmax, Bool.and_eq_true, decide_eq_true_eq]
  omega

theorem toInteger_of_decimal {s : String} {z : Int} (h : IsDecimalOf s z) :
    toInteger (.text s) = .ok (castOf z) := by
  rcases h with ⟨d, before, after, rfl, hs, hbefore, hafter⟩
  have htrim : Text.trim s = String.ofList d.chars :=
    Text.trim_surrounded hs hbefore hafter d.chars_ne_nil (fun c hc => d.not_isBlank_of_mem hc)
  simp only [toInteger, htrim, d.readInt?_chars, d.readFloat?_chars]
  by_cases hrange : -2 ^ 63 <= d.value ∧ d.value < 2 ^ 63
  · rw [int64?_in_range hrange, castOf, if_pos hrange]
  · rw [int64?_out_of_range hrange, castOf, if_neg hrange]
    simp only [ofTruncated]
    rw [Notation.IntegerText.value] at hrange ⊢
    cases hneg : d.negative with
    | false =>
      simp only [hneg, Bool.false_eq_true, if_false] at hrange ⊢
      rw [Binary64.toInt64?_above (by omega), if_neg (by omega)]
    | true =>
      simp only [hneg, if_true] at hrange ⊢
      rw [Binary64.toInt64?_below (by omega)]
      by_cases hnear : d.size <= 2 ^ 63 + 1024
      · rw [if_pos hnear, if_pos (by omega)]
      · rw [if_neg hnear, if_neg (by omega)]

theorem castOf_toInt (n : Int64) : castOf n.toInt = .integer n := by
  have hlow := n.le_toInt
  have hhigh := n.toInt_lt
  rw [castOf, if_pos ⟨hlow, hhigh⟩, Int64.ofInt_toInt]

/-- The decimal text of an integer, as values are shown. -/
theorem isDecimalOf_toString (z : Int) : IsDecimalOf (toString z) z := by
  have hdigits (n : Nat) : forall c, c ∈ Nat.toDigits 10 n -> c.isDigit := by
    intro c hc
    exact Nat.isDigit_of_mem_toDigits (by decide) (by decide) hc
  have hdenote (n : Nat) : Nat.ofDigitChars 10 (Nat.toDigits 10 n) 0 = n :=
    Nat.ofDigitChars_ten_toDigits
  cases z with
  | ofNat n =>
    exists ⟨false, Nat.toDigits 10 n, Nat.toDigits_ne_nil, hdigits n⟩, [], []
    constructor
    · simp [Notation.IntegerText.value, Notation.IntegerText.size, hdenote]
    · constructor
      · simp only [Notation.IntegerText.chars, Bool.false_eq_true, if_false, List.nil_append,
          List.append_nil]
        exact Nat.toList_repr
      · simp
  | negSucc n =>
    exists ⟨true, Nat.toDigits 10 (n + 1), Nat.toDigits_ne_nil, hdigits (n + 1)⟩, [], []
    constructor
    · simp only [Notation.IntegerText.value, Notation.IntegerText.size, hdenote, if_true]
      omega
    · constructor
      · simp only [Notation.IntegerText.chars, if_true, List.nil_append, List.append_nil]
        rw [← Nat.toList_repr]
        exact String.toList_append
      · simp

/-- A text that is an integer in decimal, with blanks around it, is cast to the integer when that
is in the 64-bit range, as is the text of every integer value.  Above the range there is nothing;
below it the 1024 integers next to the range become the smallest one. -/
theorem decimal_text_is_cast_to_integer (s : String) (z : Int) (heap : Heap) (n : Int64) :
    (IsDecimalOf s z -> toInteger (.text s) = .ok (castOf z)) ∧
      toInteger (.text (heap.render (.integer n))) = .ok (.integer n) := by
  constructor
  · exact toInteger_of_decimal
  · have hrender : heap.render (.integer n) = toString n.toInt := rfl
    rw [hrender, toInteger_of_decimal (isDecimalOf_toString n.toInt), castOf_toInt]

/-- Blanks around the digits are trimmed. -/
theorem surrounded_text_is_cast : IsDecimalOf "\t -42\n" (-42) ∧
    toInteger (.text "\t -42\n") = .ok (.integer (-42)) := by
  have h : IsDecimalOf "\t -42\n" (-42) :=
    ⟨⟨true, ['4', '2'], by decide, List.all_eq_true.mp rfl⟩, ['\t', ' '], ['\n'], by decide,
      by decide, List.all_eq_true.mp rfl, List.all_eq_true.mp rfl⟩
  constructor
  · exact h
  · rw [(decimal_text_is_cast_to_integer _ _ Heap.empty 0).1 h]
    decide

/-- The integer just below the range is not cast to nothing. -/
theorem below_range_is_not_none :
    IsDecimalOf "-9223372036854775809" (-9223372036854775809) ∧
      (-9223372036854775809 : Int) < Int64.minValue.toInt ∧
      toInteger (.text "-9223372036854775809") = .ok (.integer Int64.minValue) := by
  have h : IsDecimalOf "-9223372036854775809" (-9223372036854775809) :=
    isDecimalOf_toString (-9223372036854775809)
  constructor
  · exact h
  · constructor
    · decide
    · rw [toInteger_of_decimal h]
      decide

end Value
end StackScript
