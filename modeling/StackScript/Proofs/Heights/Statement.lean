import StackScript.Proofs.Heights.Expression

/-!
# Heights of statements

A statement ends `after` its locals have come or gone.  A statement whose slots lie
below the height, whose blocks forget what they declare and whose exits from loops
land at the height of the loop gives code that passes the static stack check.

A statement is `Placed` at an index of a function when the heights from there on
are its own.  The parts of a placed statement are placed, which is what the
inductions over statements go by.
-/

namespace StackScript

/-! ## Heights -/

/-- The height behind a statement that starts at height `n`. -/
def Stmt.after (n : Nat) : Stmt -> Nat
  | .seq a b => b.after (a.after n)
  | .drop k _ => n - k
  | .bind _ => n + 1
  | .iterate _ vars _ _ _ => n + vars + 2
  | _ => n

/-- What a statement that starts at height `n` has to keep to.  `loop` is the height of the
innermost loop, if there is one, and `floor` the number of locals that stay. -/
def Stmt.Fits (known : Nat -> Prop) (loop : Option Nat) (floor n : Nat) : Stmt -> Prop
  | .skip => True
  | .seq a b => a.Fits known loop floor n ∧ b.Fits known loop floor (a.after n)
  | .drop k _ => floor + k <= n
  | .expr e _ => e.Within known n
  | .output _ e _ => e.Within known n
  | .throw e _ => e.Within known n
  | .use e _ => e.Within known n
  | .define _ e _ => e.Within known n
  | .bind e => e.Within known n
  | .ret e _ => e.Within known n
  | .leave k _ => exists m, loop = some m ∧ m + k = n
  | .again k _ => exists m, loop = some m ∧ m + k = n
  | .cond c _ body _ other =>
    c.Within known n ∧ (body.Fits known loop floor n ∧ body.after n = n) ∧
      other.Fits known loop floor n ∧ other.after n = n
  | .while c _ body _ =>
    c.Within known n ∧ body.Fits known (some n) floor n ∧ body.after n = n
  | .stepping c _ _ step _ body _ =>
    c.Within known n ∧ step.Within known n ∧ body.Fits known (some n) floor n ∧
      body.after n = n
  | .iterate slot vars _ body _ =>
    slot + 1 = n ∧ (vars = 1 ∨ vars = 2) ∧
      body.Fits known (some (n + vars + 2)) floor (n + vars + 2) ∧
      body.after (n + vars + 2) = n + vars + 2
  | .try depth body _ handler =>
    depth = n ∧ (body.Fits known loop n n ∧ body.after n = n) ∧
      handler.Fits known loop floor (n + 1) ∧ handler.after (n + 1) = n

/-- The heights at so many pops from height `n` on. -/
def descend (n : Nat) : Nat -> List Nat
  | 0 => []
  | k + 1 => n :: descend (n - 1) k

/-- The heights at the instructions of a statement that starts at height `n`. -/
def Stmt.heights (n : Nat) : Stmt -> List Nat
  | .skip => []
  | .seq a b => a.heights n ++ b.heights (a.after n)
  | .drop k _ => descend n k
  | .expr e _ => e.heights n ++ [n + 1]
  | .output _ e _ => e.heights n ++ [n + 1]
  | .throw e _ => e.heights n ++ [n + 1]
  | .use e _ => e.heights n ++ [n + 1, n + 1]
  | .define _ e _ => e.heights n ++ [n + 1]
  | .bind e => e.heights n
  | .ret e _ => e.heights n ++ [n + 1]
  | .leave k _ => descend n k ++ [n - k]
  | .again k _ => descend n k ++ [n - k]
  | .cond c _ body _ other =>
    c.heights n ++ (n + 1) :: (n + 1) :: body.heights n ++ n :: (n + 1) :: other.heights n
  | .while c _ body _ =>
    c.heights n ++ (n + 1) :: (n + 1) :: body.heights n ++ [n, n + 1]
  | .stepping c _ _ step _ body _ =>
    c.heights n ++ (n + 1) :: (n + 1) :: n :: step.heights n ++
      (n + 1) :: n :: body.heights n ++ [n, n + 1]
  | .iterate _ vars _ body _ => n :: body.heights (n + vars + 2) ++ [n + vars + 2]
  | .try _ body _ handler => body.heights n ++ n :: handler.heights (n + 1)

attribute [grind =] Stmt.after Stmt.Fits Stmt.heights

@[simp] theorem length_descend (n k : Nat) : (descend n k).length = k := by
  induction k generalizing n with
  | zero => rfl
  | succ k ih => rw [descend, List.length_cons, ih]

@[simp] theorem Stmt.length_heights (n : Nat) (s : Stmt) : (s.heights n).length = s.size := by
  induction s generalizing n with
  | skip => rfl
  | seq a b iha ihb => simp [Stmt.heights, Stmt.size, iha, ihb]
  | drop | expr | output | throw | use | define | bind | ret | leave | again =>
      simp [Stmt.heights, Stmt.size]
  | cond c line body bodyLine other ihb iho =>
      simp [Stmt.heights, Stmt.size, ihb, iho]
      lia
  | «while» c line body bodyLine ih =>
      simp [Stmt.heights, Stmt.size, ih]
      lia
  | stepping c line jumpLine step stepLine body bodyLine ih =>
      simp [Stmt.heights, Stmt.size, ih]
      lia
  | iterate slot vars line body bodyLine ih => simp [Stmt.heights, Stmt.size, ih]
  | «try» depth body bodyLine handler ihb ihh =>
      simp [Stmt.heights, Stmt.size, ihb, ihh]
      lia

theorem head?_descend (n k : Nat) : (descend n k ++ [n - k]).head? = some n := by
  cases k <;> rfl

/-- A statement starts at the height it is given, even if it has no code. -/
theorem Stmt.head?_heights (n : Nat) (s : Stmt) :
    (s.heights n ++ [s.after n]).head? = some n := by
  induction s generalizing n with
  | skip => rfl
  | seq a b iha ihb =>
      have ha := iha n
      have hb := ihb (a.after n)
      rw [Stmt.heights, Stmt.after, List.append_assoc, List.head?_append, hb]
      rwa [List.head?_append] at ha
  | drop k => exact head?_descend n k
  | expr e | output _ e | throw e | use e | define _ e | bind e | ret e =>
      simp [Stmt.heights, Stmt.after, Expr.head?_heights n e]
  | leave k | again k =>
      rw [Stmt.heights, List.head?_append, head?_descend]
      rfl
  | cond c | «while» c | stepping c =>
      simp [Stmt.heights, Expr.head?_heights n c]
  | iterate => rfl
  | «try» depth body bodyLine handler ihb ihh =>
      have hb := ihb n
      rw [Stmt.heights]
      cases hbody : body.heights n with
      | nil => rfl
      | cons x rest => simpa [hbody] using hb

/-! ### The code of a statement fits -/

section Fits

variable {f : Function} {height : Nat -> Nat} {known : Nat -> Prop} {k : Variable.Index}

theorem Stmt.floor_le_after {loop : Option Nat} {floor n : Nat} {s : Stmt}
    (h : s.Fits known loop floor n) (hfloor : floor <= n) : floor <= s.after n := by
  induction s generalizing n with
  | seq a b iha ihb => exact ihb h.2 (iha h.1 hfloor)
  | drop k =>
      have hk : floor + k <= n := h
      show floor <= n - k
      lia
  | bind => exact Nat.le_succ_of_le hfloor
  | iterate slot vars =>
      show floor <= n + vars + 2
      lia
  | _ => exact hfloor

/-- The exits of a loop of the given height, seen from the code between `p` and `q`. -/
structure Exits.Lands (f : Function) (height : Nat -> Nat) (m p q : Nat) (x : Exits) : Prop where
  pos : 0 < m
  leave_inside : x.leave < f.code.size
  leave_height : height x.leave = m
  leave_behind : q <= x.leave
  again_inside : x.again < f.code.size
  again_height : height x.again = m
  again_behind : x.ahead = true -> q <= x.again
  again_before : x.ahead = false -> x.again <= p

theorem Exits.Lands.narrow {m p q p' q' : Nat} {x : Exits} (h : x.Lands f height m p q)
    (hp : p <= p') (hq : q' <= q) : x.Lands f height m p' q' :=
  { h with
    leave_behind := Nat.le_trans hq h.leave_behind
    again_behind := fun ha => Nat.le_trans hq (h.again_behind ha)
    again_before := fun ha => Nat.le_trans (h.again_before ha) hp }

/-- The exits of a loop that starts the next round in front of its body. -/
theorem Exits.Lands.back {m p q leave again : Nat} (hpos : 0 < m) (hinside : leave < f.code.size)
    (hleave : height leave = m) (hq : q <= leave) (hagain : height again = m)
    (hp : again <= p ∧ again < f.code.size) : Lands f height m p q ⟨leave, again, false⟩ where
  pos := hpos
  leave_inside := hinside
  leave_height := hleave
  leave_behind := hq
  again_inside := hp.2
  again_height := hagain
  again_behind := nofun
  again_before := fun _ => hp.1

/-- The exits of a loop that starts the next round behind its body. -/
theorem Exits.Lands.ahead {m p q leave again : Nat} (hpos : 0 < m) (hinside : leave < f.code.size)
    (hleave : height leave = m) (hq : q <= leave) (hagain : height again = m)
    (hq' : q <= again) (hinside' : again < f.code.size) :
    Lands f height m p q ⟨leave, again, true⟩ where
  pos := hpos
  leave_inside := hinside
  leave_height := hleave
  leave_behind := hq
  again_inside := hinside'
  again_height := hagain
  again_behind := fun _ => hq'
  again_before := nofun

/-- The heights of a statement and the height behind it. -/
theorem HeightsAt.ending {p q n : Nat} {s : Stmt} (h : HeightsAt height p (s.heights n))
    (hend : height q = s.after n) (hq : p + s.size = q) :
    HeightsAt height p (s.heights n ++ [s.after n]) := by
  subst hq
  simpa using ⟨h, hend⟩

theorem HeightsAt.startStmt {p n : Nat} {s : Stmt}
    (h : HeightsAt height p (s.heights n ++ [s.after n])) : height p = n :=
  HeightsAt.first h (s.head?_heights n)

/-- Pops down to a height of at least one fit. -/
theorem pops_fit {floor n j p line : Nat} (hj : j < n)
    (hsize : p + j < f.code.size) (hh : HeightsAt height p (descend n j ++ [n - j])) :
    Along (LineFits f height floor) p (pops j line) := by
  induction j generalizing n p with
  | zero => exact along_nil _ _
  | succ j ih =>
      simp only [descend, List.cons_append, along_cons] at hh
      rcases hh with ⟨hp, hrest⟩
      rw [show n - (j + 1) = n - 1 - j by lia] at hrest
      have hnext : height (p + 1) = n - 1 := HeightsAt.first hrest (head?_descend (n - 1) j)
      refine ⟨⟨Instr.fits_of_plain rfl ?_ (by lia) ?_, Or.inl rfl⟩, ?_⟩
      · simp [hp]
        lia
      · simp [hp, hnext]
      · exact ih (by lia) (by lia) hrest

/-- The jump over a body, with the condition on top of the stack at both of its ends. -/
theorem jumpIfFalse_fits {n ip offset floor line : Nat} (hn : 0 < n) (hfloor : floor <= n)
    (hin : ip + 1 + offset < f.code.size) (hp : height ip = n + 1)
    (hnext : height (ip + 1) = n + 1) (htarget : height (ip + 1 + offset) = n + 1) :
    LineFits f height floor ip (.jumpIfFalse offset, line) := by
  have hfits : (Instr.jumpIfFalse offset).Fits f height ip :=
    Instr.fits_branch (Or.inl rfl) (by lia) hin (hnext.trans hp.symm) (htarget.trans hp.symm)
  have hover : floor + (Instr.jumpIfFalse offset).taken <= height ip := by
    simp [hp]
    lia
  exact ⟨hfits, Or.inr hover⟩

/-- A jump out of a loop fits behind the pops that come before it. -/
theorem leaveFrom_fits {m p q ip floor line : Nat} {x : Exits} (hx : x.Lands f height m p q)
    (hip : ip < q) (hp : height ip = m) : LineFits f height floor ip (x.leaveFrom ip, line) := by
  have htarget : ip + 1 + (x.leave - (ip + 1)) = x.leave := by
    have := hx.leave_behind
    lia
  have hpos : 0 < height ip := by
    rw [hp]
    exact hx.pos
  refine ⟨Instr.fits_jump hpos ?_ ?_, Or.inl rfl⟩
  · rw [htarget]
    exact hx.leave_inside
  · rw [htarget, hx.leave_height, hp]

theorem againFrom_fits {m p q ip floor line : Nat} {x : Exits} (hx : x.Lands f height m p q)
    (hpip : p <= ip) (hip : ip < q) (hp : height ip = m) :
    LineFits f height floor ip (x.againFrom ip, line) := by
  have hpos : 0 < height ip := by
    rw [hp]
    exact hx.pos
  cases hahead : x.ahead with
  | true =>
      have htarget : ip + 1 + (x.again - (ip + 1)) = x.again := by
        have := hx.again_behind hahead
        lia
      rw [Exits.againFrom, if_pos hahead]
      refine ⟨Instr.fits_jump hpos ?_ ?_, Or.inl rfl⟩
      · rw [htarget]
        exact hx.again_inside
      · rw [htarget, hx.again_height, hp]
  | false =>
      have hbefore := hx.again_before hahead
      have htarget : ip + 1 - (ip + 1 - x.again) = x.again := by lia
      rw [Exits.againFrom, if_neg (by simp [hahead])]
      refine ⟨Instr.fits_loop hpos (by lia) ?_ ?_, Or.inl rfl⟩
      · rw [htarget]
        exact hx.again_inside
      · rw [htarget, hx.again_height, hp]

/-- A line that goes to the top of the stack and leaves nothing behind. -/
theorem lineFits_sink {floor n ip line : Nat} {i : Instr} (hi : i.plain = true)
    (hreach : i.reach = 1) (htaken : i.taken = 1) (hgiven : i.given = 0) (hn : 0 < n)
    (hfloor : floor <= n) (hp : height ip = n + 1) (hin : ip + 1 < f.code.size)
    (hnext : height (ip + 1) = n) : LineFits f height floor ip (i, line) := by
  refine lineFits_plain hi hp (by lia) (by lia) hin ?_
  rw [Instr.heightAfter, htaken, hgiven, hnext]
  rfl

/-! ### Placed statements -/

/-- A statement that starts at index `p` of a function and at height `n`. -/
structure Stmt.Placed (f : Function) (height : Nat -> Nat) (known : Nat -> Prop)
    (k : Variable.Index) (loop : Option Nat) (floor n p : Nat) (x : Exits) (s : Stmt) :
    Prop where
  pos : 0 < floor
  floor_le : floor <= n
  fits : s.Fits known loop floor n
  exits : forall m, loop = some m -> x.Lands f height m p (p + s.size)
  constants : Indexed f k s.constants
  inside : p + s.size < f.code.size
  heights : HeightsAt height p (s.heights n ++ [s.after n])

namespace Stmt.Placed

variable {loop : Option Nat} {floor n p : Nat} {x : Exits}

theorem start {s : Stmt} (h : s.Placed f height known k loop floor n p x) : height p = n :=
  HeightsAt.startStmt h.heights

theorem stop {s : Stmt} (h : s.Placed f height known k loop floor n p x) :
    height (p + s.size) = s.after n := by
  have hh := h.heights
  simp only [along_append, along_cons, Stmt.length_heights] at hh
  exact hh.2.1

theorem of_seq {a b : Stmt} (h : (Stmt.seq a b).Placed f height known k loop floor n p x) :
    a.Placed f height known k loop floor n p x ∧
      b.Placed f height known k loop floor (a.after n) (p + a.size) x := by
  have hh := h.heights
  have hk := h.constants
  have hsize := h.inside
  simp only [Stmt.heights, Stmt.after, List.append_assoc, along_append,
    Stmt.length_heights] at hh
  simp only [Stmt.constants, indexed_append] at hk
  simp only [Stmt.size] at hsize
  have hb : HeightsAt height (p + a.size) (b.heights (a.after n) ++ [b.after (a.after n)]) := by
    simpa using hh.2
  have ha : HeightsAt height p (a.heights n ++ [a.after n]) := by
    simpa using ⟨hh.1, HeightsAt.startStmt hb⟩
  constructor
  · exact
      { h with
        fits := h.fits.1
        exits := fun m hm => (h.exits m hm).narrow (by lia) (by simp [Stmt.size])
        constants := hk.1
        inside := by lia
        heights := ha }
  · exact
      { pos := h.pos
        floor_le := Stmt.floor_le_after h.fits.1 h.floor_le
        fits := h.fits.2
        exits := fun m hm => (h.exits m hm).narrow (by lia) (by simp [Stmt.size]; lia)
        constants := hk.2
        inside := by lia
        heights := hb }

/-- The heights of a conditional, part by part. -/
theorem cond_heights {c : Expr} {line bodyLine : Nat} {body other : Stmt}
    (h : (Stmt.cond c line body bodyLine other).Placed f height known k loop floor n p x) :
    HeightsAt height p (c.heights n) ∧ height (p + c.size) = n + 1 ∧
      height (p + c.size + 1) = n + 1 ∧ HeightsAt height (p + c.size + 2) (body.heights n) ∧
      height (p + c.size + body.size + 2) = n ∧ height (p + c.size + body.size + 3) = n + 1 ∧
      HeightsAt height (p + c.size + body.size + 4) (other.heights n) ∧
      height (p + c.size + body.size + other.size + 4) = n := by
  have hbehind : p + c.size + 1 + 1 + body.size = p + c.size + body.size + 2 := by lia
  have hend : p + c.size + body.size + 2 + 1 + 1 + other.size =
      p + c.size + body.size + other.size + 4 := by lia
  have hh := h.heights
  simp only [Stmt.heights, Stmt.after, List.append_assoc, List.cons_append, along_append,
    along_cons, along_nil, and_true, Expr.length_heights, Stmt.length_heights, hbehind,
    hend] at hh
  exact hh

/-- The parts of a conditional.  The jump over a branch and the pop in front of it stand
between them. -/
theorem of_cond {c : Expr} {line bodyLine : Nat} {body other : Stmt}
    (h : (Stmt.cond c line body bodyLine other).Placed f height known k loop floor n p x) :
    body.Placed f height known k loop floor n (p + c.size + 2) x ∧
      other.Placed f height known k loop floor n (p + c.size + body.size + 4) x := by
  rcases h.fits with ⟨-, ⟨hb, hbafter⟩, ho, hoafter⟩
  rcases h.cond_heights with ⟨-, -, -, hbh, hskip, -, hoh, hend⟩
  have hk := h.constants
  have hsize := h.inside
  simp only [Stmt.constants, indexed_append] at hk
  simp only [Stmt.size] at hsize
  constructor
  · exact
      { h with
        fits := hb
        exits := fun m hm => (h.exits m hm).narrow (by lia) (by simp [Stmt.size]; lia)
        constants := hk.1.2
        inside := by lia
        heights := hbh.ending (hskip.trans hbafter.symm) (by lia) }
  · exact
      { h with
        fits := ho
        exits := fun m hm => (h.exits m hm).narrow (by lia) (by simp [Stmt.size]; lia)
        constants := hk.2
        inside := by lia
        heights := hoh.ending (hend.trans hoafter.symm) (by lia) }

/-- The heights of a `while` loop, part by part. -/
theorem while_heights {c : Expr} {line bodyLine : Nat} {body : Stmt}
    (h : (Stmt.while c line body bodyLine).Placed f height known k loop floor n p x) :
    HeightsAt height p (c.heights n) ∧ height (p + c.size) = n + 1 ∧
      height (p + c.size + 1) = n + 1 ∧ HeightsAt height (p + c.size + 2) (body.heights n) ∧
      height (p + c.size + body.size + 2) = n ∧ height (p + c.size + body.size + 3) = n + 1 ∧
      height (p + c.size + body.size + 4) = n := by
  have hbehind : p + c.size + 1 + 1 + body.size = p + c.size + body.size + 2 := by lia
  have hh := h.heights
  simp only [Stmt.heights, Stmt.after, List.append_assoc, List.cons_append, List.nil_append,
    along_append, along_cons, along_nil, and_true, Expr.length_heights, Stmt.length_heights,
    hbehind] at hh
  exact hh

theorem of_while {c : Expr} {line bodyLine : Nat} {body : Stmt}
    (h : (Stmt.while c line body bodyLine).Placed f height known k loop floor n p x) :
    body.Placed f height known k (some n) floor n (p + c.size + 2)
      ⟨p + c.size + body.size + 4, p, false⟩ := by
  rcases h.fits with ⟨-, hb, hbafter⟩
  rcases h.while_heights with ⟨-, -, -, hbh, hloop, -, hend⟩
  have hk := h.constants
  have hsize := h.inside
  simp only [Stmt.constants, indexed_append] at hk
  simp only [Stmt.size] at hsize
  exact
    { h with
      fits := hb
      exits := by
        rintro m ⟨rfl⟩
        exact .back (Nat.lt_of_lt_of_le h.pos h.floor_le) (by lia) hend (by lia) h.start
          (by lia)
      constants := hk.2
      inside := by lia
      heights := hbh.ending (hloop.trans hbafter.symm) (by lia) }

/-- The heights of a loop with a step, part by part. -/
theorem stepping_heights {c step : Expr} {line jumpLine stepLine bodyLine : Nat} {body : Stmt}
    (h : (Stmt.stepping c line jumpLine step stepLine body bodyLine).Placed f height known k
      loop floor n p x) :
    HeightsAt height p (c.heights n) ∧ height (p + c.size) = n + 1 ∧
      height (p + c.size + 1) = n + 1 ∧ height (p + c.size + 2) = n ∧
      HeightsAt height (p + c.size + 3) (step.heights n) ∧
      height (p + c.size + 3 + step.size) = n + 1 ∧
      height (p + c.size + 3 + step.size + 1) = n ∧
      HeightsAt height (p + c.size + step.size + 5) (body.heights n) ∧
      height (p + c.size + step.size + body.size + 5) = n ∧
      height (p + c.size + step.size + body.size + 6) = n + 1 ∧
      height (p + c.size + step.size + body.size + 7) = n := by
  have hbody : p + c.size + 1 + 1 + 1 + step.size + 1 + 1 = p + c.size + step.size + 5 := by lia
  have hbehind : p + c.size + step.size + 5 + body.size =
      p + c.size + step.size + body.size + 5 := by lia
  have hh := h.heights
  simp only [Stmt.heights, Stmt.after, List.append_assoc, List.cons_append, List.nil_append,
    along_append, along_cons, along_nil, and_true, Expr.length_heights, Stmt.length_heights,
    hbody, hbehind] at hh
  exact hh

theorem of_stepping {c step : Expr} {line jumpLine stepLine bodyLine : Nat} {body : Stmt}
    (h : (Stmt.stepping c line jumpLine step stepLine body bodyLine).Placed f height known k
      loop floor n p x) :
    body.Placed f height known k (some n) floor n (p + c.size + step.size + 5)
      ⟨p + c.size + step.size + body.size + 7, p + c.size + 3, false⟩ := by
  rcases h.fits with ⟨-, -, hb, hbafter⟩
  rcases h.stepping_heights with ⟨-, -, -, -, hsh, -, -, hbh, hloop, -, hend⟩
  have hk := h.constants
  have hsize := h.inside
  simp only [Stmt.constants, indexed_append] at hk
  simp only [Stmt.size] at hsize
  exact
    { h with
      fits := hb
      exits := by
        rintro m ⟨rfl⟩
        exact .back (Nat.lt_of_lt_of_le h.pos h.floor_le) (by lia) hend (by lia)
          (HeightsAt.start hsh) (by lia)
      constants := hk.2
      inside := by lia
      heights := hbh.ending (hloop.trans hbafter.symm) (by lia) }

/-- The heights of a loop over a collection, part by part. -/
theorem iterate_heights {slot vars line bodyLine : Nat} {body : Stmt}
    (h : (Stmt.iterate slot vars line body bodyLine).Placed f height known k loop floor n p x) :
    height p = n ∧ HeightsAt height (p + 1) (body.heights (n + vars + 2)) ∧
      height (p + body.size + 1) = n + vars + 2 ∧ height (p + body.size + 2) = n + vars + 2 := by
  have hbehind : p + 1 + body.size = p + body.size + 1 := by lia
  have hh := h.heights
  simp only [Stmt.heights, Stmt.after, List.append_assoc, List.cons_append, List.nil_append,
    along_append, along_cons, along_nil, and_true, Stmt.length_heights, hbehind] at hh
  exact hh

theorem of_iterate {slot vars line bodyLine : Nat} {body : Stmt}
    (h : (Stmt.iterate slot vars line body bodyLine).Placed f height known k loop floor n p x) :
    body.Placed f height known k (some (n + vars + 2)) floor (n + vars + 2) (p + 1)
      ⟨p + body.size + 2, p + body.size + 1, true⟩ := by
  rcases h.fits with ⟨-, -, hb, hbafter⟩
  rcases h.iterate_heights with ⟨-, hbh, hnext, hend⟩
  have hfloor := h.floor_le
  have hsize := h.inside
  simp only [Stmt.size] at hsize
  exact
    { pos := h.pos
      floor_le := by lia
      fits := hb
      exits := by
        rintro m ⟨rfl⟩
        exact .ahead (Nat.succ_pos _) (by lia) hend (by lia) hnext (by lia) (by lia)
      constants := h.constants
      inside := by lia
      heights := hbh.ending (hnext.trans hbafter.symm) (by lia) }

/-- The heights of a `try`, part by part. -/
theorem try_heights {depth bodyLine : Nat} {body handler : Stmt}
    (h : (Stmt.try depth body bodyLine handler).Placed f height known k loop floor n p x) :
    HeightsAt height p (body.heights n) ∧ height (p + body.size) = n ∧
      HeightsAt height (p + body.size + 1) (handler.heights (n + 1)) ∧
      height (p + body.size + 1 + handler.size) = n := by
  have hh := h.heights
  simp only [Stmt.heights, Stmt.after, List.append_assoc, List.cons_append, along_append,
    along_cons, along_nil, and_true, Stmt.length_heights] at hh
  exact hh

/-- The parts of a `try`.  Its body raises the floor to the locals that a handler finds. -/
theorem of_try {depth bodyLine : Nat} {body handler : Stmt}
    (h : (Stmt.try depth body bodyLine handler).Placed f height known k loop floor n p x) :
    body.Placed f height known k loop n n p x ∧
      handler.Placed f height known k loop floor (n + 1) (p + body.size + 1) x := by
  rcases h.fits with ⟨-, ⟨hb, hbafter⟩, hr, hrafter⟩
  rcases h.try_heights with ⟨hbh, hjump, hrh, hend⟩
  have hpos := h.pos
  have hfloor := h.floor_le
  have hk := h.constants
  have hsize := h.inside
  simp only [Stmt.constants, indexed_append] at hk
  simp only [Stmt.size] at hsize
  constructor
  · exact
      { pos := by lia
        floor_le := Nat.le_refl n
        fits := hb
        exits := fun m hm => (h.exits m hm).narrow (by lia) (by simp [Stmt.size]; lia)
        constants := hk.1
        inside := by lia
        heights := hbh.ending (hjump.trans hbafter.symm) rfl }
  · exact
      { pos := hpos
        floor_le := by lia
        fits := hr
        exits := fun m hm => (h.exits m hm).narrow (by lia) (by simp [Stmt.size]; lia)
        constants := hk.2
        inside := by lia
        heights := hrh.ending (hend.trans hrafter.symm) rfl }

end Stmt.Placed

/-! ### The code of a placed statement fits -/

/-- An expression and one more instruction. -/
theorem exprThen_fits {e : Expr} {floor n p line : Nat} {i : Instr} (hpos : 0 < floor)
    (hfloor : floor <= n) (he : e.Within known n) (hk : Indexed f k e.constants)
    (hsize : p + e.size < f.code.size) (hh : HeightsAt height p (e.heights n))
    (hp : height (p + e.size) = n + 1) (hi : LineFits f height floor (p + e.size) (i, line)) :
    Along (LineFits f height floor) p (e.code k ++ [(i, line)]) := by
  refine along_expr_then.mpr ⟨?_, hi⟩
  exact lineFits_lower (e.code_fits (by lia) he (Nat.le_refl n) hk hsize hh hp) hfloor

namespace Stmt.Placed

variable {loop : Option Nat} {floor n p : Nat} {x : Exits}

/-- The heights of a statement that is an expression and so many more instructions. -/
theorem after_expr {s : Stmt} {e : Expr} {rest : List Nat}
    (h : s.Placed f height known k loop floor n p x)
    (hs : s.heights n = e.heights n ++ (n + 1) :: rest) :
    HeightsAt height p (e.heights n) ∧ height (p + e.size) = n + 1 ∧
      HeightsAt height (p + e.size + 1) (rest ++ [s.after n]) := by
  have hh := h.heights
  rw [hs] at hh
  simp only [List.append_assoc, List.cons_append, along_append, along_cons,
    Expr.length_heights] at hh
  exact ⟨hh.1, hh.2.1, by simpa using hh.2.2⟩

theorem expr_fits {e : Expr} {line : Nat}
    (h : (Stmt.expr e line).Placed f height known k loop floor n p x) :
    Along (LineFits f height floor) p ((Stmt.expr e line).code k x p) := by
  rcases h.after_expr rfl with ⟨he, hop, hrest⟩
  have hsize := h.inside
  have hpos := h.pos
  have hfloor := h.floor_le
  simp only [Stmt.size] at hsize
  refine exprThen_fits hpos hfloor h.fits h.constants (by lia) he hop ?_
  exact lineFits_sink rfl rfl rfl rfl (by lia) hfloor hop hsize hrest.1

theorem output_fits {sink : Sink} {e : Expr} {line : Nat}
    (h : (Stmt.output sink e line).Placed f height known k loop floor n p x) :
    Along (LineFits f height floor) p ((Stmt.output sink e line).code k x p) := by
  rcases h.after_expr rfl with ⟨he, hop, hrest⟩
  have hsize := h.inside
  have hpos := h.pos
  have hfloor := h.floor_le
  simp only [Stmt.size] at hsize
  refine exprThen_fits hpos hfloor h.fits h.constants (by lia) he hop ?_
  cases sink <;> exact lineFits_sink rfl rfl rfl rfl (by lia) hfloor hop hsize hrest.1

theorem throw_fits {e : Expr} {line : Nat}
    (h : (Stmt.throw e line).Placed f height known k loop floor n p x) :
    Along (LineFits f height floor) p ((Stmt.throw e line).code k x p) := by
  rcases h.after_expr rfl with ⟨he, hop, -⟩
  have hsize := h.inside
  have hpos := h.pos
  have hfloor := h.floor_le
  simp only [Stmt.size] at hsize
  refine exprThen_fits hpos hfloor h.fits h.constants (by lia) he hop ?_
  exact ⟨Instr.fits_of_last (Or.inr rfl) (by lia), Or.inr (by simp [hop]; lia)⟩

theorem ret_fits {e : Expr} {line : Nat}
    (h : (Stmt.ret e line).Placed f height known k loop floor n p x) :
    Along (LineFits f height floor) p ((Stmt.ret e line).code k x p) := by
  rcases h.after_expr rfl with ⟨he, hop, -⟩
  have hsize := h.inside
  have hpos := h.pos
  have hfloor := h.floor_le
  simp only [Stmt.size] at hsize
  refine exprThen_fits hpos hfloor h.fits h.constants (by lia) he hop ?_
  exact ⟨Instr.fits_of_last (Or.inl rfl) (by lia), Or.inr (by simp [hop]; lia)⟩

theorem define_fits {name : String} {e : Expr} {line : Nat}
    (h : (Stmt.define name e line).Placed f height known k loop floor n p x) :
    Along (LineFits f height floor) p ((Stmt.define name e line).code k x p) := by
  rcases h.after_expr rfl with ⟨he, hop, hrest⟩
  have hsize := h.inside
  have hpos := h.pos
  have hfloor := h.floor_le
  have hk := h.constants
  simp only [Stmt.size] at hsize
  simp only [Stmt.constants, indexed_cons] at hk
  refine exprThen_fits hpos hfloor h.fits hk.2 (by lia) he hop ?_
  exact lineFits_name rfl hk.1 hop (by simp; lia) (by simp; lia) hsize hrest.1

theorem use_fits {e : Expr} {line : Nat}
    (h : (Stmt.use e line).Placed f height known k loop floor n p x) :
    Along (LineFits f height floor) p ((Stmt.use e line).code k x p) := by
  rcases h.after_expr rfl with ⟨he, huse, hpop, hend, -⟩
  have hsize := h.inside
  have hpos := h.pos
  have hfloor := h.floor_le
  simp only [Stmt.size] at hsize
  rw [Stmt.code, ← List.singleton_append, ← List.append_assoc, along_append]
  constructor
  · refine exprThen_fits hpos hfloor h.fits h.constants (by lia) he huse ?_
    exact lineFits_plain rfl huse (by simp; lia) (by simp; lia) (by lia)
      (by simpa using hpop)
  · simp only [along_cons, along_nil, and_true, List.length_append, Expr.length_code,
      List.length_singleton]
    exact lineFits_sink rfl rfl rfl rfl (by lia) hfloor hpop (by lia) hend

theorem bind_fits {e : Expr} (h : (Stmt.bind e).Placed f height known k loop floor n p x) :
    Along (LineFits f height floor) p ((Stmt.bind e).code k x p) := by
  have hh := h.heights
  have hpos := h.pos
  simp only [Stmt.heights, Stmt.after, along_append, along_cons, Expr.length_heights] at hh
  have he := e.code_fits (by have := h.floor_le; lia) h.fits (Nat.le_refl n) h.constants
    h.inside hh.1 hh.2.1
  exact lineFits_lower he h.floor_le

theorem leave_fits {j line : Nat}
    (h : (Stmt.leave j line).Placed f height known k loop floor n p x) :
    Along (LineFits f height floor) p ((Stmt.leave j line).code k x p) := by
  rcases h.fits with ⟨m, hloop, hm⟩
  have hland := h.exits m hloop
  have hmpos := hland.pos
  have hh := h.heights
  have hsize := h.inside
  simp only [Stmt.heights, along_append, along_cons, length_descend] at hh
  simp only [Stmt.size, ← Nat.add_assoc] at hsize hland
  rcases hh with ⟨⟨hpops, hjump, -⟩, -⟩
  have hdown : HeightsAt height p (descend n j ++ [n - j]) := by
    simpa using ⟨hpops, hjump⟩
  refine along_pops_then.mpr ⟨?_, ?_⟩
  · exact pops_fit (by lia) (by lia) hdown
  · exact leaveFrom_fits hland (by lia) (by lia)

theorem again_fits {j line : Nat}
    (h : (Stmt.again j line).Placed f height known k loop floor n p x) :
    Along (LineFits f height floor) p ((Stmt.again j line).code k x p) := by
  rcases h.fits with ⟨m, hloop, hm⟩
  have hland := h.exits m hloop
  have hmpos := hland.pos
  have hh := h.heights
  have hsize := h.inside
  simp only [Stmt.heights, along_append, along_cons, length_descend] at hh
  simp only [Stmt.size, ← Nat.add_assoc] at hsize hland
  rcases hh with ⟨⟨hpops, hjump, -⟩, -⟩
  have hdown : HeightsAt height p (descend n j ++ [n - j]) := by
    simpa using ⟨hpops, hjump⟩
  refine along_pops_then.mpr ⟨?_, ?_⟩
  · exact pops_fit (by lia) (by lia) hdown
  · exact againFrom_fits hland (by lia) (by lia) (by lia)

theorem cond_fits {c : Expr} {line bodyLine : Nat} {body other : Stmt}
    (h : (Stmt.cond c line body bodyLine other).Placed f height known k loop floor n p x)
    (hb : Along (LineFits f height floor) (p + c.size + 2) (body.code k x (p + c.size + 2)))
    (ho : Along (LineFits f height floor) (p + c.size + body.size + 4)
      (other.code k x (p + c.size + body.size + 4))) :
    Along (LineFits f height floor) p ((Stmt.cond c line body bodyLine other).code k x p) := by
  rcases h.cond_heights with ⟨hch, hjump, hpop, -, hskip, hpop', -, hend⟩
  have hthen := h.of_cond.1.start
  have helse := h.of_cond.2.start
  have hpos := h.pos
  have hfloor := h.floor_le
  have hk := h.constants
  have hsize := h.inside
  simp only [Stmt.size] at hsize
  simp only [Stmt.constants, indexed_append] at hk
  have hpopAt : p + c.size + 1 + (body.size + 2) = p + c.size + body.size + 3 := by lia
  have hexit : p + c.size + body.size + 2 + 1 + (other.size + 1) =
      p + c.size + body.size + other.size + 4 := by lia
  refine along_cond.mpr ⟨?_, ?_, ?_, hb, ?_, ?_, ho⟩
  · exact lineFits_lower
      (c.code_fits (by lia) h.fits.1 (by lia) hk.1.1 (by lia) hch hjump) hfloor
  · exact jumpIfFalse_fits (by lia) hfloor (by lia) hjump hpop (by rw [hpopAt, hpop'])
  · exact lineFits_sink rfl rfl rfl rfl (by lia) hfloor hpop (by lia) hthen
  · exact ⟨Instr.fits_jump (by lia) (by lia) (by rw [hexit, hend, hskip]), Or.inl rfl⟩
  · exact lineFits_sink rfl rfl rfl rfl (by lia) hfloor hpop' (by lia) helse

theorem while_fits {c : Expr} {line bodyLine : Nat} {body : Stmt}
    (h : (Stmt.while c line body bodyLine).Placed f height known k loop floor n p x)
    (hb : Along (LineFits f height floor) (p + c.size + 2)
      (body.code k ⟨p + c.size + body.size + 4, p, false⟩ (p + c.size + 2))) :
    Along (LineFits f height floor) p ((Stmt.while c line body bodyLine).code k x p) := by
  rcases h.while_heights with ⟨hch, hjump, hpop, -, hloop, hpop', hend⟩
  have hp := h.start
  have hthen := h.of_while.start
  have hpos := h.pos
  have hfloor := h.floor_le
  have hk := h.constants
  have hsize := h.inside
  simp only [Stmt.size] at hsize
  simp only [Stmt.constants, indexed_append] at hk
  have hpopAt : p + c.size + 1 + (body.size + 2) = p + c.size + body.size + 3 := by lia
  have hback : p + c.size + body.size + 2 + 1 - (c.size + body.size + 3) = p := by lia
  refine along_while.mpr ⟨?_, ?_, ?_, hb, ?_, ?_⟩
  · exact lineFits_lower
      (c.code_fits (by lia) h.fits.1 (by lia) hk.1 (by lia) hch hjump) hfloor
  · exact jumpIfFalse_fits (by lia) hfloor (by lia) hjump hpop (by rw [hpopAt, hpop'])
  · exact lineFits_sink rfl rfl rfl rfl (by lia) hfloor hpop (by lia) hthen
  · exact ⟨Instr.fits_loop (by lia) (by lia) (by lia) (by rw [hback, hp, hloop]),
      Or.inl rfl⟩
  · exact lineFits_sink rfl rfl rfl rfl (by lia) hfloor hpop' (by lia) hend

theorem stepping_fits {c step : Expr} {line jumpLine stepLine bodyLine : Nat} {body : Stmt}
    (h : (Stmt.stepping c line jumpLine step stepLine body bodyLine).Placed f height known k
      loop floor n p x)
    (hb : Along (LineFits f height floor) (p + c.size + step.size + 5)
      (body.code k ⟨p + c.size + step.size + body.size + 7, p + c.size + 3, false⟩
        (p + c.size + step.size + 5))) :
    Along (LineFits f height floor) p
      ((Stmt.stepping c line jumpLine step stepLine body bodyLine).code k x p) := by
  rcases h.stepping_heights with
    ⟨hch, hjump, hpop, hskip, hsh, hspop, hsloop, -, hloop, hpop', hend⟩
  have hp := h.start
  have hbody := h.of_stepping.start
  have hpos := h.pos
  have hfloor := h.floor_le
  have hk := h.constants
  have hsize := h.inside
  simp only [Stmt.size] at hsize
  simp only [Stmt.constants, indexed_append] at hk
  have hpopAt : p + c.size + 1 + (step.size + body.size + 5) =
      p + c.size + step.size + body.size + 6 := by lia
  have hskipTo : p + c.size + 2 + 1 + (step.size + 2) = p + c.size + step.size + 5 := by lia
  have htop : p + c.size + 3 + step.size + 1 + 1 - (c.size + step.size + 5) = p := by lia
  have hagain : p + c.size + step.size + body.size + 5 + 1 - (step.size + body.size + 3) =
      p + c.size + 3 := by lia
  refine along_stepping.mpr ⟨?_, ?_, ?_, ?_, ?_, ?_, ?_, hb, ?_, ?_⟩
  · exact lineFits_lower
      (c.code_fits (by lia) h.fits.1 (by lia) hk.1.1 (by lia) hch hjump) hfloor
  · exact jumpIfFalse_fits (by lia) hfloor (by lia) hjump hpop (by rw [hpopAt, hpop'])
  · exact lineFits_sink rfl rfl rfl rfl (by lia) hfloor hpop (by lia) hskip
  · exact ⟨Instr.fits_jump (by lia) (by lia) (by rw [hskipTo, hbody, hskip]), Or.inl rfl⟩
  · exact lineFits_lower
      (step.code_fits (by lia) h.fits.2.1 (by lia) hk.1.2 (by lia) hsh hspop) hfloor
  · exact lineFits_sink rfl rfl rfl rfl (by lia) hfloor hspop (by lia) hsloop
  · exact ⟨Instr.fits_loop (by lia) (by lia) (by lia) (by rw [htop, hp, hsloop]),
      Or.inl rfl⟩
  · exact ⟨Instr.fits_loop (by lia) (by lia) (by lia)
      (by rw [hagain, HeightsAt.start hsh, hloop]), Or.inl rfl⟩
  · exact lineFits_sink rfl rfl rfl rfl (by lia) hfloor hpop' (by lia) hend

theorem iterate_fits {slot vars line bodyLine : Nat} {body : Stmt}
    (h : (Stmt.iterate slot vars line body bodyLine).Placed f height known k loop floor n p x)
    (hb : Along (LineFits f height floor) (p + 1)
      (body.code k ⟨p + body.size + 2, p + body.size + 1, true⟩ (p + 1))) :
    Along (LineFits f height floor) p
      ((Stmt.iterate slot vars line body bodyLine).code k x p) := by
  rcases h.fits with ⟨hslot, hvars, -⟩
  rcases h.iterate_heights with ⟨hp, -, hnext, hend⟩
  have hbody := h.of_iterate.start
  have hfloor := h.floor_le
  have hsize := h.inside
  simp only [Stmt.size] at hsize
  have hexit : p + 1 + (body.size + 1) = p + body.size + 2 := by lia
  have hback : p + body.size + 1 + 1 - (body.size + 1) = p + 1 := by lia
  refine along_iterate.mpr ⟨?_, hb, ?_⟩
  · refine ⟨Instr.fits_forBegin (by lia) hvars (by lia) (by lia) ?_,
      Or.inr (by simp [hp]; lia)⟩
    rw [hexit, hend, hp, Nat.add_assoc]
  · refine ⟨Instr.fits_forNext (by lia) hvars (by lia) (by lia) (by lia) ?_,
      Or.inr (by simp [hnext]; lia)⟩
    rw [hback, hbody, hnext]

theorem try_fits {depth bodyLine : Nat} {body handler : Stmt}
    (h : (Stmt.try depth body bodyLine handler).Placed f height known k loop floor n p x)
    (hb : Along (LineFits f height n) p (body.code k x p))
    (hr : Along (LineFits f height floor) (p + body.size + 1)
      (handler.code k x (p + body.size + 1))) :
    Along (LineFits f height floor) p
      ((Stmt.try depth body bodyLine handler).code k x p) := by
  rcases h.try_heights with ⟨-, hjump, -, hend⟩
  have hpos := h.pos
  have hfloor := h.floor_le
  have hsize := h.inside
  simp only [Stmt.size] at hsize
  refine along_try.mpr ⟨lineFits_lower hb hfloor, ?_, hr⟩
  exact ⟨Instr.fits_jump (by lia) (by lia) (by rw [hend, hjump]), Or.inl rfl⟩

/-- The code of a placed statement fits.  A loop hands its own exits to its body, and a `try`
raises the floor. -/
theorem code_fits {s : Stmt} (h : s.Placed f height known k loop floor n p x) :
    Along (LineFits f height floor) p (s.code k x p) := by
  induction s generalizing loop floor n p x with
  | skip => exact along_nil _ _
  | seq a b iha ihb =>
      exact along_seq.mpr ⟨iha h.of_seq.1, ihb h.of_seq.2⟩
  | drop j line =>
      have hj : floor + j <= n := h.fits
      have hpos := h.pos
      exact pops_fit (by lia) h.inside h.heights
  | expr => exact h.expr_fits
  | output => exact h.output_fits
  | throw => exact h.throw_fits
  | use => exact h.use_fits
  | define => exact h.define_fits
  | bind => exact h.bind_fits
  | ret => exact h.ret_fits
  | leave => exact h.leave_fits
  | again => exact h.again_fits
  | cond c line body bodyLine other ihb iho =>
      exact h.cond_fits (ihb h.of_cond.1) (iho h.of_cond.2)
  | «while» c line body bodyLine ih => exact h.while_fits (ih h.of_while)
  | stepping c line jumpLine step stepLine body bodyLine ih =>
      exact h.stepping_fits (ih h.of_stepping)
  | iterate slot vars line body bodyLine ih => exact h.iterate_fits (ih h.of_iterate)
  | «try» depth body bodyLine handler ihb ihh =>
      exact h.try_fits (ihb h.of_try.1) (ihh h.of_try.2)

end Stmt.Placed

/-! ### The ranges of a placed statement fit -/

/-- The code of a function holds the given lines from index `p` on. -/
abbrev CodeAt (f : Function) : Nat -> Lines -> Prop :=
  Along fun ip x => f.code.instrs[ip]? = some x.1

/-- An instruction of the function between the ends of a piece of code is one of its lines. -/
theorem CodeAt.line {P : Nat -> Instr × Nat -> Prop} {p ip : Nat} {l : Lines} {i : Instr}
    (hcode : CodeAt f p l) (hl : Along P p l) (hp : p <= ip) (hip : ip < p + l.length)
    (hi : f.code.instrs[ip]? = some i) : exists line, P ip (i, line) := by
  have hj : ip - p < l.length := by lia
  have hx : l[ip - p]? = some l[ip - p] := List.getElem?_eq_getElem hj
  have hat := along_iff.mp hcode _ _ hx
  have hP := along_iff.mp hl _ _ hx
  rw [show p + (ip - p) = ip by lia] at hat hP
  have hfst : l[ip - p].1 = i := by
    rw [hi] at hat
    exact (Option.some.inj hat).symm
  refine ⟨l[ip - p].2, ?_⟩
  rw [← hfst]
  exact hP

/-- The range of a `try` fits: whatever can fail in the body leaves its locals alone. -/
theorem Stmt.Placed.range_fits {loop : Option Nat} {floor n p depth bodyLine : Nat} {x : Exits}
    {body handler : Stmt}
    (h : (Stmt.try depth body bodyLine handler).Placed f height known k loop floor n p x)
    (hcode : CodeAt f p ((Stmt.try depth body bodyLine handler).code k x p)) :
    TryRange.Fits f height ⟨p, p + body.size + 1, depth, none⟩ := by
  have hdepth : depth = n := h.fits.1
  have hsize := h.inside
  have hparts := along_try.mp hcode
  simp only [Stmt.size] at hsize
  refine ⟨by simp only; lia, ?_, ?_⟩
  · rw [h.of_try.2.start, hdepth]
  · intro ip i hcovers hi hquiet
    have hrange : p <= ip ∧ ip < p + body.size + 1 := by simpa [TryRange.covers] using hcovers
    by_cases hbody : ip < p + body.size
    · have hline := CodeAt.line hparts.body h.of_try.1.code_fits hrange.1 (by simpa using hbody) hi
      rcases hline with ⟨line, -, hq | hkept⟩
      · rw [hquiet] at hq
        cases hq
      · rw [hdepth]
        exact hkept
    · -- the jump behind the body takes nothing
      have hip : ip = p + body.size := by lia
      rw [hip, hparts.skip] at hi
      cases hi
      cases hquiet

theorem Stmt.Placed.ranges_fit {loop : Option Nat} {floor n p : Nat} {x : Exits} {s : Stmt}
    (h : s.Placed f height known k loop floor n p x) (hcode : CodeAt f p (s.code k x p)) :
    forall r : TryRange, r ∈ s.ranges p -> r.Fits f height := by
  induction s generalizing loop floor n p x with
  | seq a b iha ihb =>
      rcases along_seq.mp hcode with ⟨ha, hb⟩
      intro r hr
      rcases List.mem_append.mp hr with hr | hr
      · exact iha h.of_seq.1 ha r hr
      · exact ihb h.of_seq.2 hb r hr
  | cond c line body bodyLine other ihb iho =>
      have hparts := along_cond.mp hcode
      intro r hr
      rcases List.mem_append.mp hr with hr | hr
      · exact ihb h.of_cond.1 hparts.body r hr
      · exact iho h.of_cond.2 hparts.other r hr
  | «while» c line body bodyLine ih => exact ih h.of_while (along_while.mp hcode).body
  | stepping c line jumpLine step stepLine body bodyLine ih =>
      exact ih h.of_stepping (along_stepping.mp hcode).body
  | iterate slot vars line body bodyLine ih =>
      exact ih h.of_iterate (along_iterate.mp hcode).body
  | «try» depth body bodyLine handler ihb ihh =>
      have hparts := along_try.mp hcode
      intro r hr
      rcases List.mem_cons.mp hr with rfl | hr
      · exact h.range_fits hcode
      · rcases List.mem_append.mp hr with hr | hr
        · exact ihb h.of_try.1 hparts.body r hr
        · exact ihh h.of_try.2 hparts.handler r hr
  | _ =>
      intro r hr
      cases hr

end Fits

end StackScript
