import StackScript.Proofs.Heights.Function
import StackScript.Proofs.Structured.Evaluation

/-!
# Where statements stand

The code of a statement stands somewhere in the script, and the code of its parts stands
inside it.  The handler of an instruction is that of the innermost `try` around it: the
ranges of a statement cover only its own code, and inner ranges are looked at first.
-/

namespace StackScript

/-! ## Ranges -/

/-- Where the last range that covers an index sends a thrown value. -/
def rangeAt (ip : Nat) : List TryRange -> Option (Nat × Nat)
  | [] => none
  | r :: rest => (rangeAt ip rest).or (if r.covers ip then some (r.stop, r.depth) else none)

@[simp] theorem rangeAt_nil (ip : Nat) : rangeAt ip [] = none := rfl

@[simp] theorem rangeAt_append (ip : Nat) (a b : List TryRange) :
    rangeAt ip (a ++ b) = (rangeAt ip b).or (rangeAt ip a) := by
  induction a with
  | nil => simp
  | cons r a ih => rw [List.cons_append, rangeAt, rangeAt, ih, Option.or_assoc]

/-- The ranges of a statement cover its own code only. -/
theorem Stmt.rangeAt_outside {s : Stmt} {ip j : Nat} (h : j < ip ∨ ip + s.size <= j) :
    rangeAt j (s.ranges ip) = none := by
  induction s generalizing ip with
  | seq a b iha ihb =>
      rw [Stmt.size] at h
      rw [Stmt.ranges, rangeAt_append, iha (by lia), ihb (by lia)]
      rfl
  | cond c line body bodyLine other ihb iho =>
      rw [Stmt.size] at h
      rw [Stmt.ranges, rangeAt_append, ihb (by lia), iho (by lia)]
      rfl
  | «while» c line body bodyLine ih =>
      rw [Stmt.size] at h
      rw [Stmt.ranges, ih (by lia)]
  | stepping c line jumpLine step stepLine body bodyLine ih =>
      rw [Stmt.size] at h
      rw [Stmt.ranges, ih (by lia)]
  | iterate slot vars line body bodyLine ih =>
      rw [Stmt.size] at h
      rw [Stmt.ranges, ih (by lia)]
  | «try» depth body bodyLine handler ihb ihh =>
      rw [Stmt.size] at h
      have hcovers : (TryRange.mk ip (ip + body.size + 1) depth none).covers j = false := by
        simp only [TryRange.covers, Bool.and_eq_false_iff, decide_eq_false_iff_not]
        lia
      rw [Stmt.ranges, rangeAt, rangeAt_append, ihb (by lia), ihh (by lia), hcovers]
      rfl
  | _ => rfl

/-- Walking down the chain finds the last range that covers an index. -/
theorem findRangeFrom?_chain {f : Function} {ranges : List TryRange}
    (hf : f.ranges = chain ranges) (ip : Nat) {n fuel : Nat} (hn : n <= ranges.length)
    (hfuel : n < fuel) :
    (f.findRangeFrom? ip fuel (before? n)).map (fun r => (r.stop, r.depth)) =
      rangeAt ip (ranges.take n) := by
  induction n generalizing fuel with
  | zero =>
      cases fuel with
      | zero => cases hfuel
      | succ fuel => rfl
  | succ n ih =>
      cases fuel with
      | zero => cases hfuel
      | succ fuel =>
          have hr : f.ranges[n]? = some { ranges[n] with next := before? n } := by
            rw [hf, chain_getElem?, List.getElem?_eq_getElem hn]
            rfl
          have htake : ranges.take (n + 1) = ranges.take n ++ [ranges[n]] := by simp
          have hcovers : (TryRange.mk ranges[n].start ranges[n].stop ranges[n].depth
              (before? n)).covers ip = ranges[n].covers ip := rfl
          rw [htake, rangeAt_append, before?, Function.findRangeFrom?, hr]
          simp only [hcovers, rangeAt, Option.none_or]
          cases ranges[n].covers ip with
          | true => rfl
          | false => exact ih (by lia) (by lia)

theorem findRange?_assemble (name script : Option String) (arity : Nat) (body : Stmt)
    (line ip : Nat) :
    ((assemble name script arity body line).findRange? ip).map (fun r => (r.stop, r.depth)) =
      rangeAt ip (body.ranges 0) := by
  have hsize : (chain (body.ranges 0)).size = (body.ranges 0).length := by simp [chain]
  have hfind := findRangeFrom?_chain (f := assemble name script arity body line) rfl ip
    (Nat.le_refl (body.ranges 0).length) (Nat.lt_succ_self _)
  rw [List.take_length] at hfind
  show ((assemble name script arity body line).findRangeFrom? ip
    ((chain (body.ranges 0)).size + 1) (before? (body.ranges 0).length)).map _ = _
  rw [hsize]
  exact hfind

/-! ## Statements and their parts -/

/-- The code of a statement stands at an index of the script, with its constants in the pool.
Outside of its own ranges its instructions have the given handler. -/
structure Site.Laid (S : Site) (k : Variable.Index) (outer : Option (Nat × Nat)) (exits : Exits)
    (ip : Nat) (s : Stmt) : Prop where
  code : CodeAt S.function ip (s.code k exits ip)
  constants : Indexed S.function k s.constants
  handlers : forall j, ip <= j -> j < ip + s.size ->
    S.handler? j = (rangeAt j (s.ranges ip)).or outer

namespace Site.Laid

variable {S : Site} {k : Variable.Index} {outer : Option (Nat × Nat)} {exits : Exits} {ip : Nat}

theorem under {s : Stmt} (h : S.Laid k outer exits ip s) (hs : s.ranges ip = []) :
    S.Under outer ip (ip + s.size) := by
  intro j hj hj'
  rw [h.handlers j hj hj', hs]
  rfl

theorem seq {a b : Stmt} (h : S.Laid k outer exits ip (.seq a b)) :
    S.Laid k outer exits ip a ∧ S.Laid k outer exits (ip + a.size) b := by
  rcases h with ⟨hcode, hconstants, hhandlers⟩
  rcases Stmt.along_seq.mp hcode with ⟨ha, hb⟩
  simp only [Stmt.size, Stmt.constants, Stmt.ranges, indexed_append, rangeAt_append]
    at hconstants hhandlers
  constructor
  · refine ⟨ha, hconstants.1, ?_⟩
    intro j hj hj'
    rw [hhandlers j hj (by lia), Stmt.rangeAt_outside (s := b) (by lia), Option.none_or]
  · refine ⟨hb, hconstants.2, ?_⟩
    intro j hj hj'
    rw [hhandlers j (by lia) (by lia), Stmt.rangeAt_outside (s := a) (by lia), Option.or_none]

/-- The parts of a conditional. -/
structure Cond (S : Site) (k : Variable.Index) (outer : Option (Nat × Nat)) (exits : Exits)
    (ip : Nat) (c : Expr) (b o : Stmt) : Prop where
  test : S.Lies k outer ip c
  jump : S.function.code.instrs[ip + c.size]? = some (.jumpIfFalse (b.size + 2))
  pop : S.function.code.instrs[ip + c.size + 1]? = some .pop
  body : S.Laid k outer exits (ip + c.size + 2) b
  skip : S.function.code.instrs[ip + c.size + b.size + 2]? = some (.jump (o.size + 1))
  otherPop : S.function.code.instrs[ip + c.size + b.size + 3]? = some .pop
  other : S.Laid k outer exits (ip + c.size + b.size + 4) o

theorem cond {c : Expr} {line bodyLine : Nat} {b o : Stmt}
    (h : S.Laid k outer exits ip (.cond c line b bodyLine o)) :
    Cond S k outer exits ip c b o := by
  rcases h with ⟨hcode, hconstants, hhandlers⟩
  rcases Stmt.along_cond.mp hcode with ⟨hc, hjump, hpop, hbody, hskip, hotherPop, hother⟩
  simp only [Stmt.size, Stmt.constants, Stmt.ranges, List.append_assoc, indexed_append,
    rangeAt_append] at hconstants hhandlers
  refine ⟨⟨hc, hconstants.1, ?_⟩, hjump, hpop, ⟨hbody, hconstants.2.1, ?_⟩, hskip, hotherPop,
    ⟨hother, hconstants.2.2, ?_⟩⟩
  · intro j hj hj'
    rw [hhandlers j hj (by lia), Stmt.rangeAt_outside (s := b) (by lia),
      Stmt.rangeAt_outside (s := o) (by lia)]
    rfl
  · intro j hj hj'
    rw [hhandlers j (by lia) (by lia), Stmt.rangeAt_outside (s := o) (by lia), Option.none_or]
  · intro j hj hj'
    rw [hhandlers j (by lia) (by lia), Stmt.rangeAt_outside (s := b) (by lia), Option.or_none]

/-- The parts of a `while` loop. -/
structure While (S : Site) (k : Variable.Index) (outer : Option (Nat × Nat)) (ip : Nat) (c : Expr)
    (b : Stmt) : Prop where
  test : S.Lies k outer ip c
  jump : S.function.code.instrs[ip + c.size]? = some (.jumpIfFalse (b.size + 2))
  pop : S.function.code.instrs[ip + c.size + 1]? = some .pop
  body : S.Laid k outer ⟨ip + c.size + b.size + 4, ip, false⟩ (ip + c.size + 2) b
  back : S.function.code.instrs[ip + c.size + b.size + 2]? = some (.loop (c.size + b.size + 3))
  stopPop : S.function.code.instrs[ip + c.size + b.size + 3]? = some .pop

theorem whileLoop {c : Expr} {line bodyLine : Nat} {b : Stmt}
    (h : S.Laid k outer exits ip (.while c line b bodyLine)) : While S k outer ip c b := by
  rcases h with ⟨hcode, hconstants, hhandlers⟩
  rcases Stmt.along_while.mp hcode with ⟨hc, hjump, hpop, hbody, hback, hstopPop⟩
  simp only [Stmt.size, Stmt.constants, Stmt.ranges, indexed_append] at hconstants hhandlers
  refine ⟨⟨hc, hconstants.1, ?_⟩, hjump, hpop, ⟨hbody, hconstants.2, ?_⟩, hback, hstopPop⟩
  · intro j hj hj'
    rw [hhandlers j hj (by lia), Stmt.rangeAt_outside (s := b) (by lia)]
    rfl
  · intro j hj hj'
    exact hhandlers j (by lia) (by lia)

/-- The parts of a loop with a step, which stands in front of the body. -/
structure Stepping (S : Site) (k : Variable.Index) (outer : Option (Nat × Nat)) (ip : Nat)
    (c d : Expr) (b : Stmt) : Prop where
  test : S.Lies k outer ip c
  jump : S.function.code.instrs[ip + c.size]? = some (.jumpIfFalse (d.size + b.size + 5))
  pop : S.function.code.instrs[ip + c.size + 1]? = some .pop
  jumpOver : S.function.code.instrs[ip + c.size + 2]? = some (.jump (d.size + 2))
  step : S.Lies k outer (ip + c.size + 3) d
  stepPop : S.function.code.instrs[ip + c.size + 3 + d.size]? = some .pop
  again : S.function.code.instrs[ip + c.size + 3 + d.size + 1]? =
    some (.loop (c.size + d.size + 5))
  body : S.Laid k outer ⟨ip + c.size + d.size + b.size + 7, ip + c.size + 3, false⟩
    (ip + c.size + d.size + 5) b
  back : S.function.code.instrs[ip + c.size + d.size + b.size + 5]? =
    some (.loop (d.size + b.size + 3))
  stopPop : S.function.code.instrs[ip + c.size + d.size + b.size + 6]? = some .pop

theorem stepping {c d : Expr} {line jumpLine stepLine bodyLine : Nat} {b : Stmt}
    (h : S.Laid k outer exits ip (.stepping c line jumpLine d stepLine b bodyLine)) :
    Stepping S k outer ip c d b := by
  rcases h with ⟨hcode, hconstants, hhandlers⟩
  rcases Stmt.along_stepping.mp hcode with
    ⟨hc, hjump, hpop, hover, hstep, hstepPop, hagain, hbody, hback, hstopPop⟩
  simp only [Stmt.size, Stmt.constants, Stmt.ranges, List.append_assoc, indexed_append]
    at hconstants hhandlers
  refine ⟨⟨hc, hconstants.1, ?_⟩, hjump, hpop, hover, ⟨hstep, hconstants.2.1, ?_⟩, hstepPop,
    hagain, ⟨hbody, hconstants.2.2, ?_⟩, hback, hstopPop⟩
  · intro j hj hj'
    rw [hhandlers j hj (by lia), Stmt.rangeAt_outside (s := b) (by lia)]
    rfl
  · intro j hj hj'
    rw [hhandlers j (by lia) (by lia), Stmt.rangeAt_outside (s := b) (by lia)]
    rfl
  · intro j hj hj'
    exact hhandlers j (by lia) (by lia)

/-- The parts of a `try`.  Only the body has its handler. -/
structure Try (S : Site) (k : Variable.Index) (outer : Option (Nat × Nat)) (exits : Exits)
    (ip depth : Nat) (b c : Stmt) : Prop where
  body : S.Laid k (some (ip + b.size + 1, depth)) exits ip b
  skip : S.function.code.instrs[ip + b.size]? = some (.jump c.size)
  handler : S.Laid k outer exits (ip + b.size + 1) c

theorem guarded {depth bodyLine : Nat} {b c : Stmt}
    (h : S.Laid k outer exits ip (.try depth b bodyLine c)) :
    Try S k outer exits ip depth b c := by
  rcases h with ⟨hcode, hconstants, hhandlers⟩
  rcases Stmt.along_try.mp hcode with ⟨hbody, hskip, hhandler⟩
  simp only [Stmt.size, Stmt.constants, Stmt.ranges, indexed_append, rangeAt, rangeAt_append]
    at hconstants hhandlers
  refine ⟨⟨hbody, hconstants.1, ?_⟩, hskip, ⟨hhandler, hconstants.2, ?_⟩⟩
  · intro j hj hj'
    have hcovers : (TryRange.mk ip (ip + b.size + 1) depth none).covers j = true := by
      simp only [TryRange.covers, Bool.and_eq_true, decide_eq_true_eq]
      lia
    rw [hhandlers j hj (by lia), Stmt.rangeAt_outside (s := c) (by lia), hcovers, if_pos rfl,
      Option.none_or, Option.or_assoc]
    rfl
  · intro j hj hj'
    have hcovers : (TryRange.mk ip (ip + b.size + 1) depth none).covers j = false := by
      simp only [TryRange.covers, Bool.and_eq_false_iff, decide_eq_false_iff_not]
      lia
    rw [hhandlers j (by lia) (by lia), Stmt.rangeAt_outside (s := b) (by lia), hcovers,
      if_neg Bool.false_ne_true, Option.or_none, Option.or_none]

end Site.Laid

end StackScript
