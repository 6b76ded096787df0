import StackScript.Proofs.Code.Pool
import StackScript.Proofs.Heights.Statement

/-!
# Heights of functions

A body that fits, with its constants in the pool and a return behind it, makes a
function that passes the static stack check.  The height of an instruction is the
one that its statement gives it.
-/

namespace StackScript

/-!
## The chain of ranges

Every range links to the one before it, so a walk along the chain goes down.
-/

theorem chain_getElem? (ranges : List TryRange) (i : Nat) :
    (chain ranges)[i]? = ranges[i]?.map fun r => { r with next := before? i } := by
  simp [chain]

theorem chainEnds_before? {f : Function} {ranges : List TryRange}
    (hf : f.ranges = chain ranges) (i : Nat) : f.ChainEnds (before? i) := by
  induction i with
  | zero => exact .done
  | succ i ih =>
      show f.ChainEnds (some i)
      cases hr : f.ranges[i]? with
      | none => exact .outside hr
      | some r =>
          have hr' := hr
          rw [hf, chain_getElem?] at hr'
          rcases Option.map_eq_some_iff.mp hr' with ⟨r', -, rfl⟩
          exact .step hr ih

theorem TryRange.Fits.relink {f : Function} {height : Nat -> Nat} {r : TryRange}
    (h : r.Fits f height) (next : Option Nat) :
    ({ r with next := next } : TryRange).Fits f height :=
  ⟨h.inside, h.handler, h.kept⟩

/-! ## Functions -/

def bodyHeight (arity : Nat) (body : Stmt) (ip : Nat) : Nat :=
  let n := body.after (arity + 1)
  (body.heights (arity + 1) ++ [n, n + 1]).getD ip 0

theorem heightsAt_bodyHeight (arity : Nat) (body : Stmt) :
    HeightsAt (bodyHeight arity body) 0
      (body.heights (arity + 1) ++
        [body.after (arity + 1), body.after (arity + 1) + 1]) := by
  refine along_iff.mpr ?_
  intro j h hj
  rw [Nat.zero_add, bodyHeight, List.getD_eq_getElem?_getD, hj]
  rfl

section Assemble

variable (name script : Option String) {arity : Nat} {body : Stmt} (line : Nat)

def bodyLines (body : Stmt) (line : Nat) : Lines :=
  body.code (poolOf body.constants).idxOf Exits.outside 0 ++
    [(.literal .none, line), (.ret, line)]

theorem assemble_instrs :
    (assemble name script arity body line).code.instrs =
      ((bodyLines body line).map Prod.fst).toArray := rfl

@[simp] theorem assemble_code_size :
    (assemble name script arity body line).code.size = body.size + 2 := by
  simp [Code.size, assemble_instrs, bodyLines]

theorem codeAt_assemble :
    CodeAt (assemble name script arity body line) 0 (bodyLines body line) := by
  refine along_iff.mpr ?_
  intro j x hj
  rw [Nat.zero_add, assemble_instrs, List.getElem?_toArray, List.getElem?_map, hj]
  rfl

theorem assemble_placed {known : Nat -> Prop}
    (h : body.Fits known none (arity + 1) (arity + 1)) :
    body.Placed (assemble name script arity body line) (bodyHeight arity body) known
      (poolOf body.constants).idxOf none (arity + 1) (arity + 1) 0 Exits.outside where
  pos := Nat.succ_pos arity
  floor_le := Nat.le_refl _
  fits := h
  exits := by
    intro m hm
    cases hm
  constants := by
    intro v hv
    exact getElem?_idxOf (mem_poolOf.mpr hv)
  inside := by
    rw [assemble_code_size]
    lia
  heights := by
    have hh := heightsAt_bodyHeight arity body
    simp only [along_append, along_cons] at hh ⊢
    exact ⟨hh.1, hh.2.1, along_nil _ _⟩

/-- The code of an assembled function fits, its last two instructions included. -/
theorem assemble_lines_fit {known : Nat -> Prop}
    (h : body.Fits known none (arity + 1) (arity + 1)) :
    Along (LineFits (assemble name script arity body line) (bodyHeight arity body) (arity + 1))
      0 (bodyLines body line) := by
  have hplaced : body.Placed (assemble name script arity body line) _ _ _ _ _ _ _ _ :=
    assemble_placed name script line h
  have hfloor := Stmt.floor_le_after h (Nat.le_refl _)
  have hh := heightsAt_bodyHeight arity body
  simp only [along_append, along_cons, Stmt.length_heights, Nat.zero_add] at hh
  rcases hh with ⟨-, hnone, hret, -⟩
  rw [bodyLines, along_append, Stmt.length_code, along_cons, along_cons, Nat.zero_add]
  refine ⟨hplaced.code_fits, ?_, ?_, along_nil _ _⟩
  · refine lineFits_plain rfl hnone (by simp; lia) (by simpa using hfloor) ?_ hret
    rw [assemble_code_size]
    lia
  · refine ⟨Instr.fits_of_last (Or.inl rfl) (by lia), Or.inr ?_⟩
    rw [hret]
    simpa using hfloor

/-- A body that fits makes a function that keeps to its heights. -/
theorem assemble_keeps {known : Nat -> Prop}
    (h : body.Fits known none (arity + 1) (arity + 1)) :
    (assemble name script arity body line).Keeps (bodyHeight arity body) := by
  have hplaced : body.Placed (assemble name script arity body line) _ _ _ _ _ _ _ _ :=
    assemble_placed name script line h
  exact
    { entry := hplaced.start
      nonempty := by
        rw [assemble_code_size]
        lia
      instrs := by
        intro ip i hi
        have hip : ip < (bodyLines body line).length := by
          have hsize := (Array.getElem?_eq_some_iff.mp hi).1
          simpa [assemble_instrs] using hsize
        have hline := CodeAt.line (codeAt_assemble name script line)
          (assemble_lines_fit name script line h) (Nat.zero_le ip) (by simpa using hip) hi
        rcases hline with ⟨_, hfits, -⟩
        exact hfits
      ranges := by
        intro r hr
        rcases Array.getElem?_of_mem hr with ⟨i, hi⟩
        have hchain : (chain (body.ranges 0))[i]? = some r := hi
        rw [chain_getElem?] at hchain
        rcases Option.map_eq_some_iff.mp hchain with ⟨r', hr', rfl⟩
        have hcode : CodeAt (assemble name script arity body line) 0 (bodyLines body line) :=
          codeAt_assemble name script line
        simp only [bodyLines, along_append] at hcode
        exact (hplaced.ranges_fit hcode.1 r' (List.mem_of_getElem? hr')).relink _
      chain := chainEnds_before? rfl _ }

/-- A body that fits makes a function that passes the static stack check. -/
theorem assemble_checked {known : Nat -> Prop}
    (h : body.Fits known none (arity + 1) (arity + 1)) :
    (assemble name script arity body line).Checked :=
  ⟨_, assemble_keeps name script line h⟩

end Assemble

end StackScript
