import Mathlib.Tactic.MkIffOfInductiveProp
import StackScript.Script.Layout

/-!
# What holds along code

Most of what is said about compiled code is said of each instruction at its index.  Such a
statement about the code of an expression or a statement comes apart into what it says of the
parts, and where the parts stand is worked out here once.
-/

namespace StackScript

/-! ## Lists along indices -/

/-- Every entry of a list meets a condition at its index, counted from `p`. -/
def Along {α : Type} (P : Nat -> α -> Prop) : Nat -> List α -> Prop
  | _, [] => True
  | p, a :: rest => P p a ∧ Along P (p + 1) rest

@[simp] theorem along_nil {α : Type} (P : Nat -> α -> Prop) (p : Nat) : Along P p [] := trivial

@[simp] theorem along_cons {α : Type} (P : Nat -> α -> Prop) (p : Nat) (a : α) (l : List α) :
    Along P p (a :: l) ↔ P p a ∧ Along P (p + 1) l := Iff.rfl

@[simp] theorem along_append {α : Type} (P : Nat -> α -> Prop) (p : Nat) (a b : List α) :
    Along P p (a ++ b) ↔ Along P p a ∧ Along P (p + a.length) b := by
  induction a generalizing p with
  | nil => simp
  | cons x a ih =>
      rw [List.cons_append, along_cons, along_cons, ih, List.length_cons, and_assoc]
      rw [show p + 1 + a.length = p + (a.length + 1) by lia]

theorem along_iff {α : Type} {P : Nat -> α -> Prop} {p : Nat} {l : List α} :
    Along P p l ↔ forall j a, l[j]? = some a -> P (p + j) a := by
  induction l generalizing p with
  | nil => simp
  | cons x l ih =>
      rw [along_cons, ih]
      constructor
      · rintro ⟨hx, hl⟩ j a hj
        cases j with
        | zero =>
            have hxa : x = a := by simpa using hj
            rw [← hxa]
            exact hx
        | succ j =>
            have hpj := hl j a (by simpa using hj)
            rwa [show p + 1 + j = p + (j + 1) by lia] at hpj
      · intro h
        constructor
        · exact h 0 x rfl
        · intro j a hj
          have hpj := h (j + 1) a (by simpa using hj)
          rwa [show p + (j + 1) = p + 1 + j by lia] at hpj

theorem Along.imp {α : Type} {P Q : Nat -> α -> Prop} {p : Nat} {l : List α}
    (h : Along P p l) (hPQ : forall ip a, P ip a -> Q ip a) : Along Q p l := by
  rw [along_iff] at h ⊢
  intro j a hj
  exact hPQ _ _ (h j a hj)

/-! ## Sizes -/

@[simp] theorem length_pops (n line : Nat) : (pops n line).length = n := by
  simp [pops]

mutual

@[simp] theorem Expr.length_code (k : Variable.Index) (e : Expr) :
    (e.code k).length = e.size := by
  cases e with
  | literal | text | function | read => rfl
  | assign v a =>
      rw [Expr.code, Expr.size, List.length_append, Expr.length_code k a]
      rfl
  | update v op opLine a =>
      rw [Expr.code, Expr.size]
      cases increment? v op a with
      | none => simp [Expr.length_code k a]
      | some i => rfl
  | unary op a => simp [Expr.code, Expr.size, Expr.length_code k a]
  | binary op a b =>
      simp [Expr.code, Expr.size, Expr.length_code k a, Expr.length_code k b, Nat.add_assoc]
  | ternary op a b c =>
      simp [Expr.code, Expr.size, Expr.length_code k a, Expr.length_code k b,
        Expr.length_code k c]
      lia
  | connect op a opLine b =>
      simp [Expr.code, Expr.size, Expr.length_code k a, Expr.length_code k b]
      lia
  | call f args =>
      simp [Expr.code, Expr.size, Expr.length_code k f, Expr.length_codes k args,
        Nat.add_assoc]
  | property o => simp [Expr.code, Expr.size, Expr.length_code k o]
  | setProperty o key a =>
      simp [Expr.code, Expr.size, Expr.length_code k o, Expr.length_code k a, Nat.add_assoc]
  | updateProperty o key op opLine a =>
      simp [Expr.code, Expr.size, Expr.length_code k o, Expr.length_code k a]
      lia
  | updateItem o i op opLine a =>
      simp [Expr.code, Expr.size, Expr.length_code k o, Expr.length_code k i,
        Expr.length_code k a]
      lia
  | array items => simp [Expr.code, Expr.size, Expr.length_codes k items]
  | table items => simp [Expr.code, Expr.size, Expr.length_codes k items]

@[simp] theorem Expr.length_codes (k : Variable.Index) (es : List Expr) :
    (Expr.codes k es).length = Expr.sizes es := by
  cases es with
  | nil => rfl
  | cons e es => simp [Expr.codes, Expr.sizes, Expr.length_code k e, Expr.length_codes k es]

end

@[simp] theorem Stmt.length_code (k : Variable.Index) (x : Exits) (ip : Nat) (s : Stmt) :
    (s.code k x ip).length = s.size := by
  induction s generalizing x ip with
  | skip => rfl
  | seq a b iha ihb => simp [Stmt.code, Stmt.size, iha, ihb]
  | drop | expr | output | throw | use | define | bind | ret | leave | again =>
      simp [Stmt.code, Stmt.size]
  | cond c line body bodyLine other ihb iho =>
      simp [Stmt.code, Stmt.size, ihb, iho]
      lia
  | «while» c line body bodyLine ih =>
      simp [Stmt.code, Stmt.size, ih]
      lia
  | stepping c line jumpLine step stepLine body bodyLine ih =>
      simp [Stmt.code, Stmt.size, ih]
      lia
  | iterate slot vars line body bodyLine ih => simp [Stmt.code, Stmt.size, ih]
  | «try» depth body bodyLine handler ihb ihh =>
      simp [Stmt.code, Stmt.size, ihb, ihh]
      lia

/-! ## The parts of a statement -/

section Parts

variable {P : Nat -> Instr × Nat -> Prop} {k : Variable.Index} {x : Exits} {p line : Nat}

theorem along_expr_then {e : Expr} {i : Instr} :
    Along P p (e.code k ++ [(i, line)]) ↔ Along P p (e.code k) ∧ P (p + e.size) (i, line) := by
  simp

theorem along_pops_then {n : Nat} {i : Instr} :
    Along P p (pops n line ++ [(i, line)]) ↔ Along P p (pops n line) ∧ P (p + n) (i, line) := by
  simp

theorem Stmt.along_seq {a b : Stmt} : Along P p ((Stmt.seq a b).code k x p) ↔
    Along P p (a.code k x p) ∧ Along P (p + a.size) (b.code k x (p + a.size)) := by
  simp [Stmt.code]

/-- What holds along the code of a conditional, part by part. -/
@[mk_iff]
structure Stmt.CondAlong (P : Nat -> Instr × Nat -> Prop) (k : Variable.Index) (x : Exits)
    (p : Nat) (c : Expr) (line : Nat) (b : Stmt) (bodyLine : Nat) (o : Stmt) : Prop where
  test : Along P p (c.code k)
  jump : P (p + c.size) (.jumpIfFalse (b.size + 2), line)
  pop : P (p + c.size + 1) (.pop, line)
  body : Along P (p + c.size + 2) (b.code k x (p + c.size + 2))
  skip : P (p + c.size + b.size + 2) (.jump (o.size + 1), bodyLine)
  otherPop : P (p + c.size + b.size + 3) (.pop, bodyLine)
  other : Along P (p + c.size + b.size + 4) (o.code k x (p + c.size + b.size + 4))

theorem Stmt.along_cond {c : Expr} {bodyLine : Nat} {body other : Stmt} :
    Along P p ((Stmt.cond c line body bodyLine other).code k x p) ↔
      CondAlong P k x p c line body bodyLine other := by
  have hbehind : p + c.size + 1 + 1 + body.size = p + c.size + body.size + 2 := by lia
  simp only [condAlong_iff, Stmt.code, List.append_assoc, List.cons_append, along_append,
    along_cons, Expr.length_code, Stmt.length_code, hbehind]

/-- What holds along the code of a `while` loop, part by part. -/
@[mk_iff]
structure Stmt.WhileAlong (P : Nat -> Instr × Nat -> Prop) (k : Variable.Index) (p : Nat)
    (c : Expr) (line : Nat) (b : Stmt) (bodyLine : Nat) : Prop where
  test : Along P p (c.code k)
  jump : P (p + c.size) (.jumpIfFalse (b.size + 2), line)
  pop : P (p + c.size + 1) (.pop, line)
  body : Along P (p + c.size + 2)
    (b.code k ⟨p + c.size + b.size + 4, p, false⟩ (p + c.size + 2))
  back : P (p + c.size + b.size + 2) (.loop (c.size + b.size + 3), bodyLine)
  stopPop : P (p + c.size + b.size + 3) (.pop, bodyLine)

theorem Stmt.along_while {c : Expr} {bodyLine : Nat} {body : Stmt} :
    Along P p ((Stmt.while c line body bodyLine).code k x p) ↔
      WhileAlong P k p c line body bodyLine := by
  have hbehind : p + c.size + 1 + 1 + body.size = p + c.size + body.size + 2 := by lia
  simp only [whileAlong_iff, Stmt.code, List.append_assoc, List.cons_append, along_append,
    along_cons, along_nil, and_true, Expr.length_code, Stmt.length_code, hbehind]

/-- What holds along the code of a loop with a step, which stands in front of the body. -/
@[mk_iff]
structure Stmt.SteppingAlong (P : Nat -> Instr × Nat -> Prop) (k : Variable.Index) (p : Nat)
    (c : Expr) (line jumpLine : Nat) (d : Expr) (stepLine : Nat) (b : Stmt)
    (bodyLine : Nat) : Prop where
  test : Along P p (c.code k)
  jump : P (p + c.size) (.jumpIfFalse (d.size + b.size + 5), line)
  pop : P (p + c.size + 1) (.pop, line)
  jumpOver : P (p + c.size + 2) (.jump (d.size + 2), jumpLine)
  step : Along P (p + c.size + 3) (d.code k)
  stepPop : P (p + c.size + 3 + d.size) (.pop, stepLine)
  again : P (p + c.size + 3 + d.size + 1) (.loop (c.size + d.size + 5), stepLine)
  body : Along P (p + c.size + d.size + 5)
    (b.code k ⟨p + c.size + d.size + b.size + 7, p + c.size + 3, false⟩
      (p + c.size + d.size + 5))
  back : P (p + c.size + d.size + b.size + 5) (.loop (d.size + b.size + 3), bodyLine)
  stopPop : P (p + c.size + d.size + b.size + 6) (.pop, bodyLine)

theorem Stmt.along_stepping {c step : Expr} {jumpLine stepLine bodyLine : Nat} {body : Stmt} :
    Along P p ((Stmt.stepping c line jumpLine step stepLine body bodyLine).code k x p) ↔
      SteppingAlong P k p c line jumpLine step stepLine body bodyLine := by
  have hbody : p + c.size + 1 + 1 + 1 + step.size + 1 + 1 = p + c.size + step.size + 5 := by lia
  have hbehind : p + c.size + step.size + 5 + body.size =
      p + c.size + step.size + body.size + 5 := by lia
  simp only [steppingAlong_iff, Stmt.code, List.append_assoc, List.cons_append, along_append,
    along_cons, along_nil, and_true, Expr.length_code, Stmt.length_code, hbody, hbehind]

/-- What holds along the code of a loop over a collection, part by part. -/
@[mk_iff]
structure Stmt.IterateAlong (P : Nat -> Instr × Nat -> Prop) (k : Variable.Index)
    (p slot vars line : Nat) (b : Stmt) (bodyLine : Nat) : Prop where
  first : P p (.forBegin slot vars (b.size + 1), line)
  body : Along P (p + 1) (b.code k ⟨p + b.size + 2, p + b.size + 1, true⟩ (p + 1))
  next : P (p + b.size + 1) (.forNext slot vars (b.size + 1), bodyLine)

theorem Stmt.along_iterate {slot vars bodyLine : Nat} {body : Stmt} :
    Along P p ((Stmt.iterate slot vars line body bodyLine).code k x p) ↔
      IterateAlong P k p slot vars line body bodyLine := by
  have hbehind : p + 1 + body.size = p + body.size + 1 := by lia
  simp only [iterateAlong_iff, Stmt.code, List.cons_append, along_append, along_cons, along_nil,
    and_true, Stmt.length_code, hbehind]

/-- What holds along the code of a `try`, part by part. -/
@[mk_iff]
structure Stmt.TryAlong (P : Nat -> Instr × Nat -> Prop) (k : Variable.Index) (x : Exits)
    (p : Nat) (b : Stmt) (bodyLine : Nat) (o : Stmt) : Prop where
  body : Along P p (b.code k x p)
  skip : P (p + b.size) (.jump o.size, bodyLine)
  handler : Along P (p + b.size + 1) (o.code k x (p + b.size + 1))

theorem Stmt.along_try {depth bodyLine : Nat} {body handler : Stmt} :
    Along P p ((Stmt.try depth body bodyLine handler).code k x p) ↔
      TryAlong P k x p body bodyLine handler := by
  simp only [tryAlong_iff, Stmt.code, along_append, along_cons, Stmt.length_code]

end Parts

end StackScript
