import StackScript.Proofs.Number.Shortest
import StackScript.Proofs.Source.Word

/-!
# Rendered floats as tokens

The text of a float has a point unless the float is whole and has more than 16 digits.  With a
point the text is one float token, which is the float again; without one it is an integer token or
no token at all.
-/

namespace StackScript

open Binary64

variable {x : Binary64}

/-- A text is read as one token before its end. -/
def ReadsAs (s : String) (t : Token) : Prop :=
  exists ts, tokenize s = (ts, none) ∧ ts.map Spanned.token = [t, .endOfFile]

def Binary64.ReadsBack (x : Binary64) : Prop :=
  ReadsAs (Notation.floatText x) (.float x)

/-! ## Decimals that stand for a float -/

namespace Decimal

/-- A decimal that rounds to the lower 63 bits of a float is read as the float. -/
theorem round_eq {d : Decimal} (hpos : x.isNegative = false)
    (h : d.nearestMagnitude = x.magnitude) : d.round false = x := by
  rw [round, h, ← hpos, ofMagnitude_magnitude]

theorem nearestMagnitude_of_value {d : Decimal} (hx : x.isFinite) (h : d.value = x.absolute) :
    d.nearestMagnitude = x.magnitude := by
  have hnearest := nearest_nearestMagnitude d
  rw [h] at hnearest
  exact hnearest.unique (nearest_absolute hx)

/-! ## Digits on both sides of a point -/

theorem isDigit_of_mem_zeros {n : Nat} {c : Char} (h : c ∈ zeros n) : c.isDigit := by
  rw [List.eq_of_mem_replicate h]
  rfl

theorem isDigit_of_mem_toDigits {n : Nat} {c : Char} (h : c ∈ Nat.toDigits 10 n) : c.isDigit :=
  Nat.isDigit_of_mem_toDigits (by decide) (by decide) h

/-- Zeros in front of digits do not change the number. -/
theorem natOfNumeral_zeros_append (k n : Nat) :
    Notation.natOfNumeral (zeros k ++ Nat.toDigits 10 n) = n := by
  have hzeros : Notation.natOfDigits 0 (zeros k) = 0 := by
    induction k with
    | zero => rfl
    | succ k ih => exact ih
  rw [Notation.natOfNumeral_eq, Notation.natOfDigits_append, hzeros]
  exact Nat.ofDigitChars_ten_toDigits

/-- The digits of a decimal, with zeros in front so that one stands before the point. -/
def padded (d : Decimal) : List Char :=
  zeros ((-d.exponent).toNat + 1 - (Nat.toDigits 10 d.digits).length) ++ Nat.toDigits 10 d.digits

theorem length_padded (d : Decimal) : (-d.exponent).toNat < d.padded.length := by
  simp only [padded, zeros, List.length_append, List.length_replicate]
  omega

theorem isDigit_of_mem_padded {d : Decimal} {c : Char} (h : c ∈ d.padded) : c.isDigit := by
  rcases List.mem_append.mp h with hc | hc
  · exact isDigit_of_mem_zeros hc
  · exact isDigit_of_mem_toDigits hc

/-- A decimal with a negative exponent is written as digits on both sides of a point. -/
theorem positional_fraction {d : Decimal} (h : d.exponent < 0) :
    exists f : Fraction, d.positional = (Word.float f).spelling ∧
      Notation.decimalOf f.whole f.digits 0 = d := by
  have hlength := length_padded d
  let front := d.padded.length - (-d.exponent).toNat
  have hfraction : (d.padded.drop front).length = (-d.exponent).toNat := by
    rw [List.length_drop]
    omega
  have hwhole : (d.padded.take front).length = front := by
    rw [List.length_take]
    omega
  exists {
    whole := d.padded.take front
    digits := d.padded.drop front
    whole_ne_nil := List.ne_nil_of_length_pos (by omega)
    digits_ne_nil := List.ne_nil_of_length_pos (by omega)
    whole_isDigit := fun c hc => isDigit_of_mem_padded (List.mem_of_mem_take hc)
    digits_isDigit := fun c hc => isDigit_of_mem_padded (List.mem_of_mem_drop hc) }
  constructor
  · simp only [positional, Word.spelling]
    rw [if_neg (by omega)]
    rfl
  · have hexponent : (0 : Int) - ((-d.exponent).toNat : Nat) = d.exponent := by omega
    rw [Notation.decimalOf, List.take_append_drop, hfraction, hexponent, padded,
      natOfNumeral_zeros_append]

/-- Behind the digits of a positive number zeros are the digits of a multiple of it. -/
theorem toDigits_append_zeros {n : Nat} (hn : 0 < n) (k : Nat) :
    Nat.toDigits 10 n ++ zeros k = Nat.toDigits 10 (n * tenTo k) := by
  induction k with
  | zero => simp [zeros, tenTo]
  | succ k ih =>
    have hpos : 0 < n * tenTo k := Nat.mul_pos hn (tenTo_pos k)
    have hzero : Nat.toDigits 10 0 = ['0'] := rfl
    have hsucc : zeros (k + 1) = zeros k ++ ['0'] := List.replicate_succ'
    have hnext : n * tenTo (k + 1) = 10 * (n * tenTo k) + 0 := by
      rw [tenTo_succ]
      ring
    rw [hsucc, ← List.append_assoc, ih, ← hzero, hnext]
    exact Nat.toDigits_append_toDigits (by decide) hpos (by decide)

/-- A decimal without a point is written as a natural number. -/
theorem positional_natural {d : Decimal} (hdigits : 0 < d.digits) (h : 0 <= d.exponent) :
    d.positional = toString (d.digits * tenTo d.exponent.toNat) := by
  simp only [positional, h, if_true, toDigits_append_zeros hdigits]
  exact (Nat.toString_eq_ofList_toDigits).symm

end Decimal

/-! ## The text of a float -/

namespace Notation

theorem signText_of_nonneg (hpos : x.isNegative = false) : signText x = "" := by
  simp [signText, hpos]

theorem absolute_of_magnitude_zero (h : x.magnitude = 0) : x.absolute = 0 := by
  simp [absolute, significand, field, fraction, h]

theorem isNaN_of_isFinite (hx : x.isFinite) : x.isNaN = false := by
  have hlt := isFinite_iff.mp hx
  simp only [isNaN, decide_eq_false_iff_not]
  omega

theorem plainText_of_isFinite (hx : x.isFinite) (hpos : x.isNegative = false) :
    plainText x = (Decimal.shortest x).positional := by
  simp [plainText, isNaN_of_isFinite hx, hx, signText_of_nonneg hpos]

/-- The text of a whole number below the bound is a number with one decimal place. -/
theorem floatText_small (hx : x.isFinite) (hpos : x.isNegative = false) (hwhole : x.isWhole)
    (hsmall : x.wholePart < wholeBound) :
    exists f : Fraction, floatText x = (Word.float f).spelling ∧ f.value = x := by
  exists {
    whole := Nat.toDigits 10 x.wholePart
    digits := ['0']
    whole_ne_nil := Nat.toDigits_ne_nil
    digits_ne_nil := by simp
    whole_isDigit := fun c hc => Decimal.isDigit_of_mem_toDigits hc
    digits_isDigit := by simp }
  constructor
  · have htext : toString x.wholePart = String.ofList (Nat.toDigits 10 x.wholePart) :=
      Nat.toString_eq_ofList_toDigits
    simp only [floatText, hwhole, hsmall, signText_of_nonneg hpos, htext, Word.spelling]
    simp
  · have hdigits : natOfNumeral (Nat.toDigits 10 x.wholePart ++ ['0']) = 10 * x.wholePart := by
      have h := Decimal.natOfNumeral_zeros_append 0 x.wholePart
      rw [natOfNumeral_eq] at h ⊢
      rw [natOfDigits_append, show natOfDigits 0 (Nat.toDigits 10 x.wholePart) = _ from h]
      rfl
    apply Decimal.round_eq hpos
    apply Decimal.nearestMagnitude_of_value hx
    rw [absolute_of_isWhole hx hwhole, Decimal.value, decimalOf, hdigits]
    push_cast
    norm_num
    ring

/-- The text of a number that is not whole is its shortest decimal, with a point. -/
theorem floatText_fraction (hx : x.isFinite) (hpos : x.isNegative = false)
    (hwhole : x.isWhole = false) :
    exists f : Fraction, floatText x = (Word.float f).spelling ∧ f.value = x := by
  rcases Decimal.positional_fraction (Decimal.shortest_exponent_neg hx hwhole) with
    ⟨f, htext, hdecimal⟩
  exists f
  constructor
  · simp [floatText, hwhole, plainText_of_isFinite hx hpos, htext]
  · rw [Fraction.value, hdecimal]
    exact Decimal.round_eq hpos (Decimal.shortest_nearestMagnitude hx)

/-- The text of a large whole number is a natural number, to which the float is the nearest. -/
theorem floatText_large (hx : x.isFinite) (hpos : x.isNegative = false)
    (hlarge : wholeBound <= x.wholePart) :
    exists n : Nat, floatText x = toString n ∧ Binary64.ofNat n = x := by
  have hbound : (10 : Rat) ^ (16 : Int) <= x.absolute := by
    have h := le_wholePart_iff.mp hlarge
    rw [wholeBound, cast_tenTo] at h
    exact_mod_cast h
  have hexponent := Decimal.shortest_exponent_nonneg hbound
  have hnearest := Decimal.shortest_nearestMagnitude hx
  generalize hd : Decimal.shortest x = d at hexponent hnearest
  have hdigits : 0 < d.digits := by
    by_contra hzero
    have hmagnitude : x.magnitude = 0 := by
      rw [← hnearest]
      simp [Decimal.nearestMagnitude, Nat.eq_zero_of_not_pos hzero]
    rw [absolute_of_magnitude_zero hmagnitude] at hbound
    norm_num at hbound
  exists d.digits * tenTo d.exponent.toNat
  constructor
  · simp [floatText, hlarge.not_gt, plainText_of_isFinite hx hpos, hd,
      Decimal.positional_natural hdigits hexponent]
  · have h := Decimal.nearest_nearestMagnitude d
    rw [Decimal.value_of_nonneg hexponent] at h
    rw [Binary64.ofNat, (nearest_ofNat _).unique h, hnearest, ← hpos, ofMagnitude_magnitude]

end Notation

/-! ## Tokens -/

/-- The text of a word is read as its token. -/
theorem readsAs_word (w : Word) : ReadsAs w.spelling w.token := by
  have hline : Word.line [w] = w.spelling := by simp [Word.line]
  rw [← hline]
  exact tokenize_line [w]

namespace Lexer

theorem ne_of_isDigit {c d : Char} (hc : c.isDigit) (hd : d.isDigit = false) : c ≠ d := by
  rintro rfl
  rw [hc] at hd
  cases hd

theorem gap_of_isDigit {c : Char} (hc : c.isDigit) (cs : List Char) : gap false (c :: cs) = 0 := by
  simp [gap, isSpace, ne_of_isDigit hc]

theorem lexeme_of_isDigit {c : Char} {cs : List Char} {f : Failure} (hc : c.isDigit)
    (h : number (c :: cs) = .error f) : lexeme [] c cs = .error f := by
  simp [lexeme, ne_of_isDigit hc, hc, h, bind, Except.bind]

/-- Digits are one decimal number, which the integer range may not hold. -/
theorem number_out_of_range {ds : List Char} (h : forall c, c ∈ ds -> c.isDigit) (hne : ds ≠ [])
    (hrange : Notation.int64? (Notation.natOfNumeral ds) = none) :
    number ds = .error ⟨.integerOutOfRange (String.ofList ds), 0⟩ := by
  have hapart : Apart [] := Or.inl rfl
  have hnumber := number_digits h hapart.head_not_hex hne
  have hchars := ofChars_whole h hapart
  rw [List.append_nil] at hnumber hchars
  simp only [hnumber, decimalNumber, hchars]
  simp [Numeral.token, integerToken, hrange, Except.map]

end Lexer

theorem Cursor.tokens_of_error {c : Cursor} {e : LexError} (h : c.next = .error e) :
    c.tokens = ([], some e) := by
  rw [tokens]
  split
  · rename_i e' he
    rw [h] at he
    cases he
    rfl
  · rename_i t c' ht
    rw [h] at ht
    cases ht

/-- A number in front of a script that is not a token is an error at the start. -/
theorem tokenize_of_failure {s : String} {c : Char} {cs : List Char} {fault : LexFault}
    (hs : s.toList = c :: cs) (hc : c.isDigit)
    (h : Lexer.number (c :: cs) = .error ⟨fault, 0⟩) :
    tokenize s = ([], some ⟨fault, 0, 0⟩) := by
  have hstart : (Cursor.ofSource s).skipGap = ⟨c :: cs, Position.start, []⟩ := by
    rw [Cursor.ofSource, hs, Cursor.skipGap, Lexer.gap_of_isDigit hc]
    rfl
  apply Cursor.tokens_of_error
  rw [Cursor.next, hstart, Cursor.read]
  simp only [Lexer.lexeme_of_isDigit hc h]
  rfl

/-- The digits of a number that no integer token holds are an error at their start. -/
theorem tokenize_out_of_range {n : Nat} (h : 2 ^ 63 <= n) :
    tokenize (toString n) = ([], some ⟨.integerOutOfRange (toString n), 0, 0⟩) := by
  have htext : (toString n).toList = Nat.toDigits 10 n := Nat.toList_repr
  have hall : forall c, c ∈ Nat.toDigits 10 n -> c.isDigit := fun c hc =>
    Decimal.isDigit_of_mem_toDigits hc
  have hvalue : Notation.natOfNumeral (Nat.toDigits 10 n) = n :=
    Decimal.natOfNumeral_zeros_append 0 n
  have hrange : Notation.int64? n = none := by
    have hmax : Int64.maxValue.toInt = 2 ^ 63 - 1 := rfl
    rw [Notation.int64?, if_neg]
    simp only [hmax, Bool.and_eq_true, decide_eq_true_eq, not_and]
    omega
  have hnumber := Lexer.number_out_of_range hall Nat.toDigits_ne_nil (by rw [hvalue, hrange])
  rw [← Nat.toString_eq_ofList_toDigits] at hnumber
  cases hcs : Nat.toDigits 10 n with
  | nil => exact absurd hcs Nat.toDigits_ne_nil
  | cons c cs =>
    rw [hcs] at htext hall hnumber
    exact tokenize_of_failure htext (hall c (by simp)) hnumber

theorem ReadsAs.unique {s : String} {t t' : Token} (h : ReadsAs s t) (h' : ReadsAs s t') :
    t = t' := by
  rcases h with ⟨ts, htokens, hmap⟩
  rcases h' with ⟨ts', htokens', hmap'⟩
  rw [htokens] at htokens'
  cases htokens'
  cases hmap.symm.trans hmap'
  rfl

theorem ReadsAs.no_error {s : String} {t : Token} {e : LexError} (h : ReadsAs s t) :
    tokenize s ≠ ([], some e) := by
  rcases h with ⟨ts, htokens, _⟩
  rw [htokens]
  simp

/-! ## Reading a rendered float -/

/-- The text of a float that is less than `10 ^ 16` has a point. -/
theorem Binary64.readsBack_of_small (hx : x.isFinite) (hpos : x.isNegative = false)
    (h : x.wholePart < Notation.wholeBound) : x.ReadsBack := by
  have htext : exists f : Fraction,
      Notation.floatText x = (Word.float f).spelling ∧ f.value = x := by
    cases hwhole : x.isWhole with
    | true => exact Notation.floatText_small hx hpos hwhole h
    | false => exact Notation.floatText_fraction hx hpos hwhole
  rcases htext with ⟨f, hspelling, hvalue⟩
  rw [ReadsBack, hspelling, ← hvalue]
  exact readsAs_word (.float f)

/-- How the digits of a natural number are read. -/
theorem reads_natural (n : Nat) :
    n < 2 ^ 63 ∧ ReadsAs (toString n) (.integer (Int64.ofNat n)) ∨
      2 ^ 63 <= n ∧
        tokenize (toString n) = ([], some ⟨.integerOutOfRange (toString n), 0, 0⟩) := by
  rcases Nat.lt_or_ge n (2 ^ 63) with hlt | hge
  · exact Or.inl ⟨hlt, readsAs_word (.integer ⟨n, hlt⟩)⟩
  · exact Or.inr ⟨hge, tokenize_out_of_range hge⟩

/-- Digits alone are never read as a float. -/
theorem not_readsAs_float (n : Nat) (y : Binary64) : ¬ ReadsAs (toString n) (.float y) := by
  intro h
  rcases reads_natural n with ⟨_, hinteger⟩ | ⟨_, herror⟩
  · cases h.unique hinteger
  · exact h.no_error herror

/-- The text of a finite float that is not negative is read as the float exactly when the float
is less than `10 ^ 16`.  From there on the text is a natural number to which the float is the
nearest, and it is an integer token, or no token at all when the integers do not hold it. -/
theorem rendered_float_reads_back_below_bound (hx : x.isFinite) (hpos : x.isNegative = false) :
    (x.ReadsBack ↔ x.wholePart < Notation.wholeBound) ∧
      (Notation.wholeBound <= x.wholePart ->
        exists n : Nat, Notation.floatText x = toString n ∧ Binary64.ofNat n = x ∧
          (n < 2 ^ 63 ∧ ReadsAs (toString n) (.integer (Int64.ofNat n)) ∨
            2 ^ 63 <= n ∧
              tokenize (toString n) = ([], some ⟨.integerOutOfRange (toString n), 0, 0⟩))) := by
  constructor
  · constructor
    · intro h
      by_contra hlarge
      rcases Notation.floatText_large hx hpos (not_lt.mp hlarge) with ⟨n, htext, _⟩
      rw [ReadsBack, htext] at h
      exact not_readsAs_float n x h
    · exact readsBack_of_small hx hpos
  · intro hlarge
    rcases Notation.floatText_large hx hpos hlarge with ⟨n, htext, hn⟩
    exact ⟨n, htext, hn, reads_natural n⟩

/-- The smallest positive float reads back. -/
theorem smallest_float_reads_back : (Binary64.mk 1).isFinite ∧ (Binary64.mk 1).isNegative = false ∧
    (Binary64.mk 1).ReadsBack :=
  ⟨by decide, by decide,
    (rendered_float_reads_back_below_bound (by decide) (by decide)).1.mpr (by decide +kernel)⟩

/-- The float `10 ^ 16` is finite and not negative, and its text is read as an integer. -/
theorem ten_to_sixteen_reads_as_integer :
    (Binary64.ofNat (tenTo 16)).isFinite ∧ (Binary64.ofNat (tenTo 16)).isNegative = false ∧
      ReadsAs (Notation.floatText (Binary64.ofNat (tenTo 16))) (.integer 10000000000000000) ∧
      ¬ (Binary64.ofNat (tenTo 16)).ReadsBack := by
  have htext : Notation.floatText (Binary64.ofNat (tenTo 16)) = toString 10000000000000000 := by
    decide +kernel
  have hread : ReadsAs (toString 10000000000000000) (.integer 10000000000000000) :=
    readsAs_word (.integer 10000000000000000)
  rw [ReadsBack, htext]
  exact ⟨by decide +kernel, by decide +kernel, hread, not_readsAs_float _ _⟩

end StackScript
