import Mathlib.Algebra.Group.Nat.Defs
import StackScript.Code.Codec

/-!
# Code is read back from its bytes

Each reader takes exactly the bytes that were written for a value and leaves what follows
them alone, so the readers can be put one behind the other.  A list of instructions whose
numbers have 64 bits is therefore read back whatever comes behind its bytes.
-/

namespace StackScript

/-! ## Operands of 64 bits -/

namespace Instr

/-- An index has 64 bits; the other operands have them by their type. -/
def Operand.InRange : Operand -> Prop
  | .index n => n < 2 ^ 64
  | .int _ => True
  | .float _ => True

/-- All operands of an instruction have 64 bits. -/
def InRange (i : Instr) : Prop :=
  forall o, o ∈ i.operands -> o.InRange

/-- The instruction that a shape makes of operands, if they are the ones it needs. -/
def Shape.build? : Shape -> List Operand -> Option Instr
  | .plain i, [] => some i
  | .index make, [.index n] => some (make n)
  | .int make, [.int n] => some (make n)
  | .float make, [.float x] => some (make x)
  | .indexInt make, [.index k, .int n] => some (make k n)
  | .indices make, [.index a, .index b, .index c] => some (make a b c)
  | _, _ => none

/-- The number of an instruction leads to the shape that puts it together again. -/
theorem build?_operands (i : Instr) :
    exists s, shape? i.number = some s ∧ s.build? i.operands = some i := by
  cases i with
  | literal v =>
      cases v with
      | bool b => cases b <;> exact ⟨_, rfl, rfl⟩
      | _ => exact ⟨_, rfl, rfl⟩
  | unary op => cases op <;> exact ⟨_, rfl, rfl⟩
  | binary op =>
      cases op with
      | arith op => cases op <;> exact ⟨_, rfl, rfl⟩
      | compare c => cases c <;> exact ⟨_, rfl, rfl⟩
      | _ => exact ⟨_, rfl, rfl⟩
  | ternary op => cases op <;> exact ⟨_, rfl, rfl⟩
  | _ => exact ⟨_, rfl, rfl⟩

theorem lt_count_of_shape? {n : Nat} {s : Shape} (h : shape? n = some s) : n < count := by
  rcases Nat.lt_or_ge n count with hn | hn
  · exact hn
  · rcases Nat.exists_eq_add_of_le' hn with ⟨k, rfl⟩
    cases h

end Instr

namespace Codec

/-! ## Readers that take what was written -/

/-- The reader takes exactly these bytes, whatever follows them, and gives the value. -/
def Reads {α : Type} (read : Reader α) (bytes : List UInt8) (v : α) : Prop :=
  forall rest, read (bytes ++ rest) = .ok (v, rest)

theorem ok_bind {α β : Type} (a : α) (next : α -> Except DecodeError β) :
    Except.ok a >>= next = next a :=
  rfl

theorem toNat_toUInt8 {n : Nat} (h : n < 256) : n.toUInt8.toNat = n := by
  rw [Nat.toUInt8, UInt8.toNat_ofNat', Nat.mod_eq_of_lt h]

/-- A varint of at most `size + 1` bytes has seven bits in each, and in the last one those up to
`last`. -/
theorem reads_nat {size last n : Nat} (hlast : last < 128) (hn : n < (last + 1) * 128 ^ size) :
    Reads (decodeNat (size + 1) last) (encodeNat n) n := by
  intro rest
  induction size generalizing n with
  | zero =>
      have hsmall : n < 128 := by lia
      rw [encodeNat, if_pos hsmall]
      simp only [List.singleton_append, decodeNat, toNat_toUInt8 (by lia : n < 256)]
      simp [hsmall]
      lia
  | succ size ih =>
      rw [encodeNat]
      by_cases hsmall : n < 128
      · rw [if_pos hsmall]
        simp [decodeNat, toNat_toUInt8 (by lia : n < 256), hsmall]
      · have hbyte : (n % 128 + 128).toUInt8.toNat = n % 128 + 128 := toNat_toUInt8 (by lia)
        have hhigh : n / 128 < (last + 1) * 128 ^ size := by
          rw [Nat.div_lt_iff_lt_mul (by decide), Nat.mul_assoc, ← Nat.pow_succ]
          exact hn
        have hlow : ¬ n % 128 + 128 < 128 := by lia
        have hsum : n % 128 + 128 - 128 + 128 * (n / 128) = n := by lia
        rw [if_neg hsmall, List.cons_append, decodeNat, hbyte, if_neg hlow, ih hhigh]
        simp only [hsum]

theorem reads_index {n : Nat} (hn : n < 2 ^ 64) : Reads decodeIndex (encodeNat n) n :=
  reads_nat (by decide) hn

theorem reads_number {n : Nat} (hn : n < 2 ^ 32) : Reads decodeNumber (encodeNat n) n :=
  reads_nat (by decide) hn

theorem zigzag_lt (n : Int64) : zigzag n < 2 ^ 64 := by
  have hlo := n.le_toInt
  have hhi := n.toInt_lt
  unfold zigzag
  split <;> lia

theorem unzigzag_zigzag (n : Int64) : unzigzag (zigzag n) = n := by
  have hvalue : (if zigzag n % 2 = 0 then ((zigzag n / 2 : Nat) : Int)
      else -((zigzag n / 2 + 1 : Nat) : Int)) = n.toInt := by
    unfold zigzag
    split <;> split <;> lia
  rw [unzigzag, hvalue, Int64.ofInt_toInt]

theorem reads_int (n : Int64) : Reads decodeInt (encodeNat (zigzag n)) n := by
  intro rest
  rw [decodeInt, reads_index (zigzag_lt n)]
  simp [Except.map, unzigzag_zigzag]

theorem reads_littleEndian {size n : Nat} (hn : n < 256 ^ size) :
    Reads (decodeLittleEndian size) (littleEndian size n) n := by
  intro rest
  induction size generalizing n with
  | zero =>
      have hzero : n = 0 := Nat.lt_one_iff.mp hn
      rw [hzero]
      rfl
  | succ size ih =>
      have hbyte : (n % 256).toUInt8.toNat = n % 256 := toNat_toUInt8 (by lia)
      have hhigh : n / 256 < 256 ^ size := by
        rw [Nat.div_lt_iff_lt_mul (by decide), ← Nat.pow_succ]
        exact hn
      have hsum : n % 256 + 256 * (n / 256) = n := by lia
      rw [littleEndian, List.cons_append, decodeLittleEndian, ih hhigh]
      simp only [hbyte, hsum]

theorem reads_float (x : Binary64) : Reads decodeFloat (littleEndian 8 x.bits.toNat) x := by
  intro rest
  rw [decodeFloat, reads_littleEndian x.bits.toNat_lt]
  simp [Except.map]

/-! ## Instructions -/

theorem reads_operands {s : Instr.Shape} {os : List Instr.Operand} {i : Instr}
    (hbuild : s.build? os = some i) (hos : forall o, o ∈ os -> o.InRange) :
    Reads (decodeOperands s) (os.flatMap encodeOperand) i := by
  intro rest
  have hindex {n : Nat} (hn : .index n ∈ os) (rest : List UInt8) :
      decodeIndex (encodeNat n ++ rest) = .ok (n, rest) :=
    reads_index (hos (.index n) hn) rest
  unfold Instr.Shape.build? at hbuild
  split at hbuild
  case h_1 i =>
      cases hbuild
      rfl
  case h_2 make n =>
      cases hbuild
      rw [List.flatMap_singleton, encodeOperand, decodeOperands, hindex (by simp)]
      rfl
  case h_3 make n =>
      cases hbuild
      rw [List.flatMap_singleton, encodeOperand, decodeOperands, reads_int]
      rfl
  case h_4 make x =>
      cases hbuild
      rw [List.flatMap_singleton, encodeOperand, decodeOperands, reads_float]
      rfl
  case h_5 make k n =>
      cases hbuild
      simp only [List.flatMap_cons, List.flatMap_nil, List.append_nil, List.append_assoc,
        encodeOperand, decodeOperands]
      rw [hindex (by simp), ok_bind, reads_int]
      rfl
  case h_6 make a b c =>
      cases hbuild
      simp only [List.flatMap_cons, List.flatMap_nil, List.append_nil, List.append_assoc,
        encodeOperand, decodeOperands]
      rw [hindex (by simp), ok_bind, hindex (by simp), ok_bind, hindex (by simp)]
      rfl
  case h_7 => cases hbuild

theorem reads_instr {i : Instr} (hi : i.InRange) : Reads decodeInstr (encodeInstr i) i := by
  intro rest
  rcases i.build?_operands with ⟨s, hs, hbuild⟩
  have hnumber : i.number < 2 ^ 32 := Nat.lt_trans (Instr.lt_count_of_shape? hs) (by decide)
  rw [decodeInstr, encodeInstr, List.append_assoc, reads_number hnumber, ok_bind]
  simp only [hs]
  exact reads_operands hbuild hi rest

theorem reads_many {is : List Instr} (his : forall i, i ∈ is -> i.InRange) :
    Reads (decodeMany is.length) (is.flatMap encodeInstr) is := by
  induction is with
  | nil =>
      intro rest
      rfl
  | cons i is ih =>
      intro rest
      have hi := reads_instr (his i (by simp))
      have hrest := ih fun j hj => his j (by simp [hj])
      rw [List.flatMap_cons, List.append_assoc, List.length_cons, decodeMany, hi, ok_bind]
      simp only [hrest rest]
      rfl

/-- A list of instructions of 64-bit numbers is read back from its bytes, whatever follows. -/
theorem decode_encode_append (is : List Instr) (t : List UInt8) (hlength : is.length < 2 ^ 64)
    (his : forall i, i ∈ is -> i.InRange) : decode (encode is ++ t) = .ok is := by
  rw [decode, encode, List.append_assoc, reads_index hlength, ok_bind]
  simp only [reads_many his t]
  rfl

def outermost : List Instr :=
  [.forNext 0 127 (2 ^ 64 - 1), .increment 128 Int64.minValue, .literal (.int Int64.maxValue),
    .literal (.float ⟨0xFFF8000000000001⟩), .unary .toText]

theorem outermost_inRange : forall i, i ∈ outermost -> i.InRange := by
  simp [outermost, Instr.InRange, Instr.operands, Instr.Operand.InRange]

theorem outermost_reads_back :
    (forall i, i ∈ outermost -> i.InRange) ∧
      decode (encode outermost ++ [255, 0]) = .ok outermost :=
  ⟨outermost_inRange, decode_encode_append outermost [255, 0] (by decide) outermost_inRange⟩

end Codec
end StackScript
