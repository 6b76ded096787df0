import StackScript.Proofs.Number.Integer
import StackScript.Value.Arith

/-!
# Comparing values

Two integers are equal when they are the same, but their order is that of the numbers nearest to
them.  So the order of integers is exact unless two different ones share their number, and only
there does equality through a float lead from one integer to another.
-/

namespace StackScript

open Binary64 (ofInt64)

def Comparison.Holds (c : Comparison) (a b : Value) : Prop :=
  c.apply a b = .ok (.bool true)

namespace Value

/-! ## The order of integers -/

def ExactlyOne (p q r : Prop) : Prop :=
  (p ∧ ¬ q ∧ ¬ r) ∨ (¬ p ∧ q ∧ ¬ r) ∨ (¬ p ∧ ¬ q ∧ r)

/-- The comparisons of two integers answer what the order of the integers says. -/
structure ComparedExactly (a b : Int64) : Prop where
  less : Comparison.less.apply (.integer a) (.integer b) = .ok (.bool (decide (a < b)))
  lessEqual : Comparison.lessEqual.apply (.integer a) (.integer b) = .ok (.bool (decide (a <= b)))
  greater : Comparison.greater.apply (.integer a) (.integer b) = .ok (.bool (decide (a > b)))
  greaterEqual :
    Comparison.greaterEqual.apply (.integer a) (.integer b) = .ok (.bool (decide (a >= b)))
  one : ExactlyOne (Comparison.less.Holds (.integer a) (.integer b))
    (Comparison.equal.Holds (.integer a) (.integer b))
    (Comparison.greater.Holds (.integer a) (.integer b))

/-- The order takes two integers for the same, though they are not equal. -/
structure Confused (a b : Int64) : Prop where
  less : Comparison.less.apply (.integer a) (.integer b) = .ok (.bool false)
  lessEqual : Comparison.lessEqual.apply (.integer a) (.integer b) = .ok (.bool true)
  greater : Comparison.greater.apply (.integer a) (.integer b) = .ok (.bool false)
  greaterEqual : Comparison.greaterEqual.apply (.integer a) (.integer b) = .ok (.bool true)
  equal : Comparison.equal.apply (.integer a) (.integer b) = .ok (.bool false)

section Integers

variable {a b : Int64}

/-- An ordering of two integers is answered from the ranks of their nearest numbers. -/
theorem apply_integers {c : Comparison} {test : Ordering -> Bool}
    (hc : (Instr.binary (.compare c)).order? = some test) :
    c.apply (.integer a) (.integer b) =
      .ok (.bool (test (compare (ofInt64 a).rank (ofInt64 b).rank))) := by
  have horder : order? (.integer a) (.integer b) =
      some (some (compare (ofInt64 a).rank (ofInt64 b).rank)) := by
    simp [order?, toBinary64?, Binary64.compare?_of_numbers, Binary64.isNaN_ofInt64]
  have hordered : ordered (.binary (.compare c)) (.integer a) (.integer b) =
      .ok (.bool (test (compare (ofInt64 a).rank (ofInt64 b).rank))) := by
    simp only [ordered, horder, hc]
  cases c with
  | equal => cases hc
  | notEqual => cases hc
  | less => exact hordered
  | lessEqual => exact hordered
  | greater => exact hordered
  | greaterEqual => exact hordered

theorem equal_integers : Comparison.equal.apply (.integer a) (.integer b) =
    .ok (.bool (decide (a = b))) := by
  rfl

/-- Ranks are ordered as the integers are, unless two different integers share their rank. -/
theorem compare_rank (h : a = b ∨ ofInt64 a ≠ ofInt64 b) :
    compare (ofInt64 a).rank (ofInt64 b).rank = compare a.toInt b.toInt := by
  rcases h with rfl | hne
  · simp
  · have hrank : (ofInt64 a).rank ≠ (ofInt64 b).rank := by
      intro heq
      exact hne (Binary64.rank_ofInt_inj.mp heq)
    rcases lt_trichotomy a.toInt b.toInt with hlt | heq | hgt
    · have hle : (ofInt64 a).rank <= (ofInt64 b).rank := Binary64.rank_ofInt_mono hlt.le
      rw [compare_lt_iff_lt.mpr hlt, compare_lt_iff_lt.mpr (lt_of_le_of_ne hle hrank)]
    · exact absurd (congrArg ofInt64 (Int64.toInt_inj.mp heq)) hne
    · have hle : (ofInt64 b).rank <= (ofInt64 a).rank := Binary64.rank_ofInt_mono hgt.le
      rw [compare_gt_iff_gt.mpr hgt, compare_gt_iff_gt.mpr (lt_of_le_of_ne hle hrank.symm)]

/-- Where ranks are ordered as the integers are, a comparison answers what the order says. -/
theorem apply_exactly {c : Comparison} {test : Ordering -> Bool} {p : Prop} [Decidable p]
    (hc : (Instr.binary (.compare c)).order? = some test) (h : a = b ∨ ofInt64 a ≠ ofInt64 b)
    (hp : test (compare a.toInt b.toInt) = true ↔ p) :
    c.apply (.integer a) (.integer b) = .ok (.bool (decide p)) := by
  rw [apply_integers hc, compare_rank h]
  congr 2
  rw [Bool.eq_iff_iff, decide_eq_true_eq, hp]

theorem comparedExactly (h : a = b ∨ ofInt64 a ≠ ofInt64 b) : ComparedExactly a b := by
  have hless := apply_exactly (c := .less) (p := a < b) rfl h
    (by rw [Int64.lt_iff_toInt_lt, Ordering.isLT_iff_eq_lt, compare_lt_iff_lt])
  have hgreater := apply_exactly (c := .greater) (p := a > b) rfl h
    (by rw [gt_iff_lt, Int64.lt_iff_toInt_lt, Ordering.isGT_iff_eq_gt, compare_gt_iff_gt])
  constructor
  · exact hless
  · exact apply_exactly rfl h (by rw [Int64.le_iff_toInt_le, Std.isLE_compare])
  · exact hgreater
  · exact apply_exactly rfl h (by rw [ge_iff_le, Int64.le_iff_toInt_le, Std.isGE_compare])
  · simp only [Comparison.Holds, hless, hgreater, equal_integers, Except.ok.injEq, bool.injEq,
      decide_eq_true_eq, gt_iff_lt, Int64.lt_iff_toInt_lt, ← Int64.toInt_inj, ExactlyOne]
    omega

theorem confused (hne : a ≠ b) (h : ofInt64 a = ofInt64 b) : Confused a b := by
  have hrank : compare (ofInt64 a).rank (ofInt64 b).rank = .eq := by
    rw [h]
    exact compare_eq_iff_eq.mpr rfl
  constructor
  · rw [apply_integers rfl, hrank]
    rfl
  · rw [apply_integers rfl, hrank]
    rfl
  · rw [apply_integers rfl, hrank]
    rfl
  · rw [apply_integers rfl, hrank]
    rfl
  · rw [equal_integers, decide_eq_false hne]

theorem Confused.not_exact (h : Confused a b) : ¬ ComparedExactly a b := by
  intro hexact
  rcases hexact.one with ⟨hless, _, _⟩ | ⟨_, hequal, _⟩ | ⟨_, _, hgreater⟩
  · cases h.less.symm.trans hless
  · cases h.equal.symm.trans hequal
  · cases h.greater.symm.trans hgreater

end Integers

/-- The comparisons of two integers are those of the integers exactly when the integers are equal
or become different numbers.  Else both are at least `2 ^ 53` in absolute value, and of the three
answers to less, equal and greater none is yes. -/
theorem integers_compare_as_nearest_numbers (a b : Int64) :
    (ComparedExactly a b ↔ a = b ∨ ofInt64 a ≠ ofInt64 b) ∧
      (ComparedExactly a b ∨
        (Confused a b ∧ 2 ^ 53 <= a.toInt.natAbs ∧ 2 ^ 53 <= b.toInt.natAbs)) := by
  by_cases h : a = b ∨ ofInt64 a ≠ ofInt64 b
  · have hexact := comparedExactly h
    exact ⟨⟨fun _ => h, fun _ => hexact⟩, Or.inl hexact⟩
  · rcases not_or.mp h with ⟨hne, hsame⟩
    have hconfused := confused hne (not_not.mp hsame)
    have hlarge := Binary64.large_of_ofInt_eq (not_not.mp hsame)
      (fun heq => hne (Int64.toInt_inj.mp heq))
    constructor
    · exact ⟨fun hexact => absurd hexact hconfused.not_exact, fun hor => absurd hor h⟩
    · exact Or.inr ⟨hconfused, hlarge⟩

/-- `2 ^ 53` is not below the integer behind it. -/
theorem not_comparedExactly_next : ¬ ComparedExactly 9007199254740992 9007199254740993 := by
  apply Confused.not_exact
  apply confused
  · decide
  · decide +kernel

/-! ## Equality

A value that is no number equals those of its kind with the same contents or the same identity.
Numbers are the hard case: an integer meets an integer as it is, and a float by the number nearest
to it.
-/

def IsNaN : Value -> Prop
  | .float x => x.isNaN
  | _ => False

/-- The value without the name of a function of the host, which its number identifies. -/
def identity : Value -> Value
  | .native _ id => .native "" id
  | v => v

section Equality

variable {a b c : Value}

theorem equal_comm (a b : Value) : a.equal b = b.equal a := by
  cases a <;> cases b <;> first | rfl | exact Binary64.equal_symm _ _ | exact Bool.beq_comm

/-- Apart from numbers, equality compares what a value is. -/
theorem equal_iff_identity (ha : a.toBinary64? = Option.none) :
    a.equal b ↔ a.identity = b.identity := by
  cases a with
  | integer n => cases ha
  | float x => cases ha
  | _ => cases b <;> simp [equal.eq_def, identity.eq_def]

theorem toBinary64?_congr (h : a.identity = b.identity) : a.toBinary64? = b.toBinary64? := by
  have hself (v : Value) : v.identity.toBinary64? = v.toBinary64? := by
    cases v <;> rfl
  rw [← hself a, h, hself b]

theorem equal_integer_iff {n : Int64} :
    a.equal (.integer n) ↔ a = .integer n ∨ exists x, a = .float x ∧ x.equal (ofInt64 n) := by
  cases a <;> simp [equal.eq_def]

theorem equal_float_iff {y : Binary64} :
    a.equal (.float y) ↔
      (exists n, a = .integer n ∧ (ofInt64 n).equal y) ∨ exists x, a = .float x ∧ x.equal y := by
  cases a <;> simp [equal.eq_def]

theorem equal_refl_iff : a.equal a ↔ ¬ a.IsNaN := by
  cases a <;> simp [equal.eq_def, IsNaN, Binary64.equal_iff]

theorem holds_equal_iff : Comparison.equal.Holds a b ↔ a.equal b := by
  simp [Comparison.Holds, Comparison.apply]

/-- A float between two different integers that both become a number equal to it. -/
def Bridged (a b c : Value) : Prop :=
  exists (m n : Int64) (x : Binary64), a = .integer m ∧ b = .float x ∧ c = .integer n ∧ m ≠ n ∧
    ofInt64 m = ofInt64 n ∧ 2 ^ 53 <= m.toInt.natAbs ∧ 2 ^ 53 <= n.toInt.natAbs

theorem bridged {m n : Int64} {x : Binary64} (hm : (ofInt64 m).equal x)
    (hn : (ofInt64 n).equal x) (hne : m ≠ n) :
    Bridged (.integer m) (.float x) (.integer n) := by
  rw [Binary64.equal_iff] at hm hn
  have hsame : ofInt64 m = ofInt64 n := Binary64.rank_ofInt_inj.mp (hm.2.2.trans hn.2.2.symm)
  have hlarge := Binary64.large_of_ofInt_eq hsame (fun heq => hne (Int64.toInt_inj.mp heq))
  exact ⟨m, n, x, rfl, rfl, rfl, hne, hsame, hlarge⟩

/-- Equality leads on from one value to the next, unless it goes from an integer through a float
to another integer. -/
theorem equal_trans_or (hab : a.equal b) (hbc : b.equal c) : a.equal c ∨ Bridged a b c := by
  have hcb : c.equal b := by rwa [equal_comm]
  by_cases hb : b.toBinary64? = Option.none
  · left
    rw [equal_iff_identity hb] at hbc
    rw [equal_comm, equal_iff_identity hb] at hab
    rw [equal_iff_identity ((toBinary64?_congr hab).symm.trans hb), ← hab, hbc]
  · cases b with
    | integer n =>
      left
      rcases equal_integer_iff.mp hab with rfl | ⟨x, rfl, hx⟩
      · exact hbc
      · rcases equal_integer_iff.mp hcb with rfl | ⟨z, rfl, hz⟩
        · exact hab
        · rw [Binary64.equal_symm] at hz
          exact Binary64.equal_trans hx hz
    | float y =>
      rcases equal_float_iff.mp hab with ⟨m, rfl, hm⟩ | ⟨x, rfl, hx⟩
      · rcases equal_float_iff.mp hcb with ⟨n, rfl, hn⟩ | ⟨z, rfl, hz⟩
        · by_cases hmn : m = n
          · left
            rw [hmn]
            exact equal_refl_iff.mpr not_false
          · right
            exact bridged hm hn hmn
        · left
          rw [Binary64.equal_symm] at hz
          exact Binary64.equal_trans hm hz
      · left
        rcases equal_float_iff.mp hcb with ⟨n, rfl, hn⟩ | ⟨z, rfl, hz⟩
        · rw [Binary64.equal_symm] at hn
          exact Binary64.equal_trans hx hn
        · rw [Binary64.equal_symm] at hz
          exact Binary64.equal_trans hx hz
    | _ => exact absurd rfl hb

end Equality

/-- Equality is reflexive on all values but the float that is not a number, symmetric, and
transitive except through a float between two different integers of at least `2 ^ 53` in absolute
value that become the same number. -/
theorem equality_is_equivalence_but_for_bridges (a b c : Value) :
    (Comparison.equal.Holds a a ↔ ¬ a.IsNaN) ∧
      (Comparison.equal.Holds a b ↔ Comparison.equal.Holds b a) ∧
      (Comparison.equal.Holds a b ∧ Comparison.equal.Holds b c ->
        Comparison.equal.Holds a c ∨ Bridged a b c) := by
  simp only [holds_equal_iff]
  constructor
  · exact equal_refl_iff
  · constructor
    · rw [equal_comm]
    · intro h
      exact equal_trans_or h.1 h.2

/-- From `2 ^ 53` equality leads to the float of the same value and on to the next integer. -/
theorem next_integer_is_bridged :
    Comparison.equal.Holds (.integer 9007199254740992) (.float (ofInt64 9007199254740992)) ∧
      Comparison.equal.Holds (.float (ofInt64 9007199254740992)) (.integer 9007199254740993) ∧
      Bridged (.integer 9007199254740992) (.float (ofInt64 9007199254740992))
        (.integer 9007199254740993) := by
  have hab : Comparison.equal.Holds (.integer 9007199254740992)
      (.float (ofInt64 9007199254740992)) := by
    rw [holds_equal_iff]
    decide +kernel
  have hbc : Comparison.equal.Holds (.float (ofInt64 9007199254740992))
      (.integer 9007199254740993) := by
    rw [holds_equal_iff]
    decide +kernel
  have hac : ¬ Comparison.equal.Holds (.integer 9007199254740992) (.integer 9007199254740993) := by
    rw [holds_equal_iff]
    decide
  have hor := (equality_is_equivalence_but_for_bridges _ _ _).2.2 ⟨hab, hbc⟩
  exact ⟨hab, hbc, hor.resolve_left hac⟩

/-- Equality is not transitive, though no value in the chain is the float that is not a number. -/
theorem equality_not_transitive :
    ¬ forall a b c : Value, ¬ a.IsNaN -> ¬ b.IsNaN -> ¬ c.IsNaN ->
      Comparison.equal.Holds a b -> Comparison.equal.Holds b c -> Comparison.equal.Holds a c := by
  intro h
  have hfloat : ¬ (float (ofInt64 9007199254740992)).IsNaN := by
    simp [IsNaN, Binary64.isNaN_ofInt64]
  have hac := h (.integer 9007199254740992) (.float (ofInt64 9007199254740992))
    (.integer 9007199254740993) not_false hfloat not_false
    (by rw [holds_equal_iff]; decide +kernel) (by rw [holds_equal_iff]; decide +kernel)
  rw [holds_equal_iff] at hac
  exact absurd hac (by decide)

end Value
end StackScript
