import StackScript.Proofs.Code.RoundTrip

/-!
# Code that is cut short

The bytes of a list of instructions say at every point what is still to come: how many
instructions follow, which operands an instruction has, whether a varint goes on.  So bytes that
are cut short anywhere, be it inside the length, behind an instruction's number or in the middle
of an operand, are refused because they end too early.
-/

namespace StackScript
namespace Codec

section Readers

variable {α β : Type} {read : Reader α} {bytes bytes' : List UInt8} {v : α}

/-- If anything is missing at the end of these bytes, the reader says that they end too early. -/
def Starves (read : Reader α) (bytes : List UInt8) : Prop :=
  forall cut missing, bytes = cut ++ missing -> missing ≠ [] -> read cut = .error .unexpectedEnd

theorem starves_nil (read : Reader α) : Starves read [] := by
  intro cut missing h hmissing
  have hboth := List.append_eq_nil_iff.mp h.symm
  exact absurd hboth.2 hmissing

/-- The bytes are cut in front of the first one or behind it. -/
theorem starves_cons {b : UInt8} (hnil : read [] = .error .unexpectedEnd)
    (hcons : Starves (fun rest => read (b :: rest)) bytes) : Starves read (b :: bytes) := by
  intro cut missing h hmissing
  cases cut with
  | nil => exact hnil
  | cons c cut =>
      rcases List.cons.inj h with ⟨hc, hrest⟩
      rw [← hc]
      exact hcons cut missing hrest hmissing

theorem Starves.map (h : Starves read bytes) (f : α × List UInt8 -> β × List UInt8) :
    Starves (fun bytes => (read bytes).map f) bytes := by
  intro cut missing hcut hmissing
  show (read cut).map f = _
  rw [h cut missing hcut hmissing]
  rfl

/-- Of two readers one behind the other, the one whose bytes are cut misses their end. -/
theorem Starves.bind (hread : Starves read bytes) (hreads : Reads read bytes v)
    (f : α -> Reader β) (hf : Starves (f v) bytes') :
    Starves (fun bytes => read bytes >>= fun p => f p.1 p.2) (bytes ++ bytes') := by
  have hbehind (cut missing : List UInt8) (hcut : bytes' = cut ++ missing)
      (hmissing : missing ≠ []) :
      (read (bytes ++ cut) >>= fun p => f p.1 p.2) = .error .unexpectedEnd := by
    rw [hreads cut, ok_bind]
    exact hf cut missing hcut hmissing
  intro cut missing h hmissing
  rcases List.append_eq_append_iff.mp h with ⟨more, rfl, hmore⟩ | ⟨more, rfl, hmore⟩
  · exact hbehind more missing hmore hmissing
  · by_cases hempty : more = []
    · -- The cut lies between the two readers, so it is the second one that finds nothing.
      subst hempty
      have hall := hbehind [] missing (by simpa using hmore.symm) hmissing
      simpa using hall
    · show (read cut >>= fun p => f p.1 p.2) = _
      rw [hread cut more rfl hempty]
      rfl

end Readers

/-! ## Numbers -/

theorem starves_nat {size last n : Nat} (hlast : last < 128) (hn : n < (last + 1) * 128 ^ size) :
    Starves (decodeNat (size + 1) last) (encodeNat n) := by
  induction size generalizing n with
  | zero =>
      have hsmall : n < 128 := by lia
      rw [encodeNat, if_pos hsmall]
      exact starves_cons rfl (starves_nil _)
  | succ size ih =>
      rw [encodeNat]
      by_cases hsmall : n < 128
      · rw [if_pos hsmall]
        exact starves_cons rfl (starves_nil _)
      · have hbyte : (n % 128 + 128).toUInt8.toNat = n % 128 + 128 := toNat_toUInt8 (by lia)
        have hhigh : n / 128 < (last + 1) * 128 ^ size := by
          rw [Nat.div_lt_iff_lt_mul (by decide), Nat.mul_assoc, ← Nat.pow_succ]
          exact hn
        have hlow : ¬ n % 128 + 128 < 128 := by lia
        rw [if_neg hsmall]
        apply starves_cons rfl
        intro cut missing hcut hmissing
        have hrest := ih hhigh cut missing hcut hmissing
        simp only [decodeNat, hbyte, if_neg hlow, hrest]

theorem starves_index {n : Nat} (hn : n < 2 ^ 64) : Starves decodeIndex (encodeNat n) :=
  starves_nat (by decide) hn

theorem starves_number {n : Nat} (hn : n < 2 ^ 32) : Starves decodeNumber (encodeNat n) :=
  starves_nat (by decide) hn

theorem starves_int (n : Int64) : Starves decodeInt (encodeNat (zigzag n)) :=
  (starves_index (zigzag_lt n)).map _

theorem starves_littleEndian (size n : Nat) :
    Starves (decodeLittleEndian size) (littleEndian size n) := by
  induction size generalizing n with
  | zero => exact starves_nil _
  | succ size ih =>
      apply starves_cons rfl
      intro cut missing hcut hmissing
      have hrest := ih (n / 256) cut missing hcut hmissing
      simp only [decodeLittleEndian, hrest]

theorem starves_float (x : Binary64) : Starves decodeFloat (littleEndian 8 x.bits.toNat) :=
  (starves_littleEndian 8 _).map _

/-! ## Instructions -/

theorem starves_operands {s : Instr.Shape} {os : List Instr.Operand} {i : Instr}
    (hbuild : s.build? os = some i) (hos : forall o, o ∈ os -> o.InRange) :
    Starves (decodeOperands s) (os.flatMap encodeOperand) := by
  have hindex {β : Type} {bytes : List UInt8} (n : Nat) (hn : .index n ∈ os)
      (f : Nat -> Reader β) (hf : Starves (f n) bytes) :
      Starves (fun bytes => decodeIndex bytes >>= fun p => f p.1 p.2) (encodeNat n ++ bytes) :=
    (starves_index (hos (.index n) hn)).bind (reads_index (hos (.index n) hn)) f hf
  unfold Instr.Shape.build? at hbuild
  split at hbuild
  case h_1 i => exact starves_nil _
  case h_2 make n =>
      exact hindex n (by simp) (fun n bytes => .ok (make n, bytes)) (starves_nil _)
  case h_3 make n =>
      exact (starves_int n).bind (reads_int n) (fun n bytes => .ok (make n, bytes)) (starves_nil _)
  case h_4 make x =>
      exact (starves_float x).bind (reads_float x) (fun x bytes => .ok (make x, bytes))
        (starves_nil _)
  case h_5 make k n =>
      have hlast := (starves_int n).bind (reads_int n) (fun n bytes => .ok (make k n, bytes))
        (starves_nil _)
      exact hindex k (by simp) (fun k bytes => decodeInt bytes >>= fun p => .ok (make k p.1, p.2))
        hlast
  case h_6 make a b c =>
      have hlast := hindex c (by simp) (fun c bytes => .ok (make a b c, bytes)) (starves_nil _)
      have hmiddle := hindex b (by simp)
        (fun b bytes => decodeIndex bytes >>= fun p => .ok (make a b p.1, p.2)) hlast
      exact hindex a (by simp)
        (fun a bytes => decodeIndex bytes >>= fun p => decodeIndex p.2 >>= fun q =>
          .ok (make a p.1 q.1, q.2)) hmiddle
  case h_7 => cases hbuild

/-- The reader of an instruction takes a number and then the operands that the number asks for. -/
theorem decodeInstr_eq (bytes : List UInt8) : decodeInstr bytes = decodeNumber bytes >>= fun p =>
    (Instr.shape? p.1).elim (.error .unknownInstruction) fun shape =>
      decodeOperands shape p.2 := by
  rw [decodeInstr]
  congr 1
  funext p
  rcases p with ⟨number, rest⟩
  dsimp only
  cases Instr.shape? number with
  | some shape => rfl
  | none => rfl

theorem starves_instr {i : Instr} (hi : i.InRange) : Starves decodeInstr (encodeInstr i) := by
  rcases i.build?_operands with ⟨s, hs, hbuild⟩
  have hnumber : i.number < 2 ^ 32 := Nat.lt_trans (Instr.lt_count_of_shape? hs) (by decide)
  have hoperands := starves_operands hbuild hi
  rw [funext decodeInstr_eq]
  apply (starves_number hnumber).bind (reads_number hnumber) fun number bytes =>
    (Instr.shape? number).elim (.error .unknownInstruction) fun shape =>
      decodeOperands shape bytes
  simp only [hs, Option.elim_some]
  exact hoperands

theorem starves_many {is : List Instr} (his : forall i, i ∈ is -> i.InRange) :
    Starves (decodeMany is.length) (is.flatMap encodeInstr) := by
  induction is with
  | nil => exact starves_nil _
  | cons i is ih =>
      have hi : i.InRange := his i (by simp)
      have hrest := ih fun j hj => his j (by simp [hj])
      have hall := hrest.map fun p => (i :: p.1, p.2)
      apply (starves_instr hi).bind (reads_instr hi) fun i bytes =>
        (decodeMany is.length bytes).map fun p => (i :: p.1, p.2)
      exact hall

/-- Bytes that miss the end of a list of instructions of 64-bit numbers are refused because they
end too early, wherever they are cut. -/
theorem decode_of_cut (is : List Instr) (bytes : List UInt8) (hlength : is.length < 2 ^ 64)
    (his : forall i, i ∈ is -> i.InRange) (hcut : bytes <+: encode is)
    (hshort : bytes ≠ encode is) : decode bytes = .error .unexpectedEnd := by
  have hstarves := (starves_index hlength).bind (reads_index hlength)
    (fun n bytes => decodeMany n bytes) (starves_many his)
  rcases hcut with ⟨missing, hmissing⟩
  have hsome : missing ≠ [] := by
    intro hnone
    rw [hnone, List.append_nil] at hmissing
    exact hshort hmissing
  have hfails : (decodeIndex bytes >>= fun p => decodeMany p.1 p.2) = .error .unexpectedEnd :=
    hstarves bytes missing hmissing.symm hsome
  have hdecode : decode bytes =
      (decodeIndex bytes >>= fun p => decodeMany p.1 p.2) >>= fun p => .ok p.1 := by
    rw [decode]
    cases decodeIndex bytes with
    | error e => rfl
    | ok p => rfl
  rw [hdecode, hfails]
  rfl

/-- The cut lies inside the last operand of the first instruction. -/
theorem outermost_is_cut :
    (forall i, i ∈ outermost -> i.InRange) ∧ (encode outermost).take 8 <+: encode outermost ∧
      (encode outermost).take 8 ≠ encode outermost ∧
      decode ((encode outermost).take 8) = .error .unexpectedEnd := by
  have hcut : (encode outermost).take 8 <+: encode outermost := List.take_prefix 8 _
  have hshort : (encode outermost).take 8 ≠ encode outermost := by decide +kernel
  have hfails := decode_of_cut outermost _ (by decide) outermost_inRange hcut hshort
  exact ⟨outermost_inRange, hcut, hshort, hfails⟩

end Codec
end StackScript
