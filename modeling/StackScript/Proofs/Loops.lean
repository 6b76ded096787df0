import StackScript.Proofs.Writing.Script

/-!
# Jumps out of loops

A statement in the body of a loop knows the loop, and how many locals there are before it.  A jump
that leaves the innermost loop forgets the locals that the body has declared so far and leads behind
the loop, and one that goes on with the next round forgets the same locals and leads to where that
round starts.
-/

namespace StackScript

/-! ## Loops -/

/-- A loop in the code of a function. -/
structure Loop where
  body : Stmt
  /-- Where the code of the body starts. -/
  start : Nat
  /-- The height in front of the body. -/
  height : Nat
  /-- The first index behind the loop. -/
  behind : Nat
  /-- Where the next round starts. -/
  next : Nat

/-- The loop that a statement is, if its code starts at index `ip` and at height `n`. -/
def Stmt.loop? (ip n : Nat) : Stmt -> Option Loop
  | .while c _ body _ => some ⟨body, ip + c.size + 2, n, ip + c.size + body.size + 4, ip⟩
  | .stepping c _ _ step _ body _ =>
    some ⟨body, ip + c.size + step.size + 5, n, ip + c.size + step.size + body.size + 7,
      ip + c.size + 3⟩
  | .iterate _ vars _ body _ =>
    some ⟨body, ip + 1, n + vars + 2, ip + body.size + 2, ip + body.size + 1⟩
  | _ => none

/-- The statement `t`, whose code starts at index `j` and at height `m` and whose innermost loop is
`l`, is a part of a statement at the given index and height in the given loop. -/
inductive Stmt.Inside (t : Stmt) (j m : Nat) (l : Option Loop) :
    Nat -> Nat -> Option Loop -> Stmt -> Prop where
  | whole : Inside t j m l j m l t
  | first {ip n : Nat} {o : Option Loop} {a b : Stmt} :
      Inside t j m l ip n o a -> Inside t j m l ip n o (.seq a b)
  | second {ip n : Nat} {o : Option Loop} {a b : Stmt} :
      Inside t j m l (ip + a.size) (a.after n) o b -> Inside t j m l ip n o (.seq a b)
  | branch {ip n line bodyLine : Nat} {o : Option Loop} {c : Expr} {body other : Stmt} :
      Inside t j m l (ip + c.size + 2) n o body ->
        Inside t j m l ip n o (.cond c line body bodyLine other)
  | other {ip n line bodyLine : Nat} {o : Option Loop} {c : Expr} {body other : Stmt} :
      Inside t j m l (ip + c.size + body.size + 4) n o other ->
        Inside t j m l ip n o (.cond c line body bodyLine other)
  | looped {ip n : Nat} {o : Option Loop} {s : Stmt} {loop : Loop} :
      s.loop? ip n = some loop ->
        Inside t j m l loop.start loop.height (some loop) loop.body -> Inside t j m l ip n o s
  | tried {ip n depth line : Nat} {o : Option Loop} {body handler : Stmt} :
      Inside t j m l ip n o body -> Inside t j m l ip n o (.try depth body line handler)
  | handled {ip n depth line : Nat} {o : Option Loop} {body handler : Stmt} :
      Inside t j m l (ip + body.size + 1) (n + 1) o handler ->
        Inside t j m l ip n o (.try depth body line handler)

/-- The exits lead to the ends of a loop, seen from the code between `p` and `q`. -/
structure Exits.Of (x : Exits) (loop : Loop) (p q : Nat) : Prop where
  leave : x.leave = loop.behind
  again : x.again = loop.next
  behind : q <= loop.behind
  ahead : x.ahead = true -> q <= loop.next
  back : x.ahead = false -> loop.next <= p

theorem Exits.Of.narrow {x : Exits} {loop : Loop} {p q p' q' : Nat} (h : x.Of loop p q)
    (hp : p <= p') (hq : q' <= q) : x.Of loop p' q' :=
  { h with
    behind := Nat.le_trans hq h.behind
    ahead := fun ha => Nat.le_trans hq (h.ahead ha)
    back := fun ha => Nat.le_trans (h.back ha) hp }

section Jumps

variable {x : Exits} {loop : Loop} {p q ip : Nat}

theorem Exits.Of.leaveFrom_target (h : x.Of loop p q) (hip : ip < q) :
    (x.leaveFrom ip).jumpTarget? ip = some loop.behind := by
  have hbehind := h.behind
  rw [Exits.leaveFrom, Instr.jumpTarget?, h.leave,
    show ip + 1 + (loop.behind - (ip + 1)) = loop.behind by lia]

theorem Exits.Of.againFrom_target (h : x.Of loop p q) (hp : p <= ip) (hip : ip < q) :
    (x.againFrom ip).jumpTarget? ip = some loop.next := by
  cases hahead : x.ahead with
  | true =>
      have hnext := h.ahead hahead
      rw [Exits.againFrom, if_pos hahead, Instr.jumpTarget?, h.again,
        show ip + 1 + (loop.next - (ip + 1)) = loop.next by lia]
  | false =>
      have hnext := h.back hahead
      rw [Exits.againFrom, if_neg (by simp [hahead]), Instr.jumpTarget?, h.again,
        if_pos (by lia), show ip + 1 - (ip + 1 - loop.next) = loop.next by lia]

end Jumps

/-! ## Statements inside loops -/

section Inside

variable {f : Function} {k : Variable.Index} {known : Nat -> Prop} {s t : Stmt} {ip n j m : Nat}
  {o l : Option Loop}

/-- The exits of the loop that a statement stands in, if there is one. -/
def Exits.In (x : Exits) (o : Option Loop) (p q : Nat) : Prop :=
  forall loop, o = some loop -> x.Of loop p q

theorem Exits.In.narrow {x : Exits} {p q p' q' : Nat} (h : x.In o p q) (hp : p <= p')
    (hq : q' <= q) : x.In o p' q' :=
  fun loop ho => (h loop ho).narrow hp hq

/-- The body of a loop stands where the loop says, between the exits of the loop. -/
theorem Stmt.codeAt_body {x : Exits} {loop : Loop} (hloop : s.loop? ip n = some loop)
    (hcode : CodeAt f ip (s.code k x ip)) :
    exists x', x'.Of loop loop.start (loop.start + loop.body.size) ∧
      CodeAt f loop.start (loop.body.code k x' loop.start) := by
  cases s with
  | «while» c line body bodyLine =>
      cases hloop
      refine ⟨⟨ip + c.size + body.size + 4, ip, false⟩, ⟨rfl, rfl, ?_, by simp, ?_⟩,
        (along_while.mp hcode).body⟩
      · simp only
        lia
      · simp only
        lia
  | stepping c line jumpLine step stepLine body bodyLine =>
      cases hloop
      refine ⟨⟨ip + c.size + step.size + body.size + 7, ip + c.size + 3, false⟩,
        ⟨rfl, rfl, ?_, by simp, ?_⟩, (along_stepping.mp hcode).body⟩
      · simp only
        lia
      · simp only
        lia
  | iterate slot vars line body bodyLine =>
      cases hloop
      refine ⟨⟨ip + body.size + 2, ip + body.size + 1, true⟩, ⟨rfl, rfl, ?_, ?_, by simp⟩,
        (along_iterate.mp hcode).body⟩
      · simp only
        lia
      · simp only
        lia
  | _ => cases hloop

/-- The body of a loop keeps to the height of the loop. -/
theorem Stmt.Fits.body {loop : Loop} {outer : Option Nat} {floor : Nat}
    (h : s.Fits known outer floor n) (hloop : s.loop? ip n = some loop) :
    loop.body.Fits known (some loop.height) floor loop.height := by
  cases s with
  | «while» =>
      cases hloop
      exact h.2.1
  | stepping =>
      cases hloop
      exact h.2.2.1
  | iterate =>
      cases hloop
      exact h.2.2.1
  | _ => cases hloop

/-- A statement keeps to the height of its innermost loop. -/
theorem Stmt.Inside.fits (h : t.Inside j m l ip n o s) {floor : Nat}
    (hfits : s.Fits known (o.map Loop.height) floor n) :
    exists floor', t.Fits known (l.map Loop.height) floor' m := by
  induction h generalizing floor with
  | whole => exact ⟨floor, hfits⟩
  | first _ ih => exact ih hfits.1
  | second _ ih => exact ih hfits.2
  | branch _ ih => exact ih hfits.2.1.1
  | other _ ih => exact ih hfits.2.2.1
  | looped hloop _ ih => exact ih (hfits.body hloop)
  | tried _ ih => exact ih hfits.2.1.1
  | handled _ ih => exact ih hfits.2.2.1

/-- The code of a statement stands between the exits of its innermost loop. -/
theorem Stmt.Inside.codeAt (h : t.Inside j m l ip n o s) {x : Exits}
    (hcode : CodeAt f ip (s.code k x ip)) (hx : x.In o ip (ip + s.size)) :
    exists x', x'.In l j (j + t.size) ∧ CodeAt f j (t.code k x' j) := by
  induction h generalizing x with
  | whole => exact ⟨x, hx, hcode⟩
  | first _ ih =>
      exact ih (along_seq.mp hcode).1 (hx.narrow (by lia) (by simp [Stmt.size]))
  | second _ ih =>
      exact ih (along_seq.mp hcode).2 (hx.narrow (by lia) (by simp [Stmt.size]; lia))
  | branch _ ih =>
      exact ih (along_cond.mp hcode).body (hx.narrow (by lia) (by simp [Stmt.size]; lia))
  | other _ ih =>
      exact ih (along_cond.mp hcode).other (hx.narrow (by lia) (by simp [Stmt.size]; lia))
  | looped hloop _ ih =>
      rcases Stmt.codeAt_body hloop hcode with ⟨x', hx', hbody⟩
      refine ih hbody ?_
      intro loop ho
      cases ho
      exact hx'
  | tried _ ih =>
      exact ih (along_try.mp hcode).body (hx.narrow (by lia) (by simp [Stmt.size]; lia))
  | handled _ ih =>
      exact ih (along_try.mp hcode).handler (hx.narrow (by lia) (by simp [Stmt.size]; lia))

end Inside

/-! ## Functions -/

/-- At index `j` stand so many pops and behind them the jump `i`, which leads to `target`. -/
structure Function.PopsAndJumps (f : Function) (j pops : Nat) (i : Instr) (target : Nat) :
    Prop where
  pop : forall d, d < pops -> f.code.instrs[j + d]? = some .pop
  jump : f.code.instrs[j + pops]? = some i
  leads : i.jumpTarget? (j + pops) = some target

/-- The jump at an index leaves a loop through a pop, behind which the loop ends. -/
def Function.LeavesThroughPop (f : Function) (ip behind : Nat) : Prop :=
  exists exit offset, f.code.instrs[ip]? = some (.jumpIfFalse offset) ∧
    (Instr.jumpIfFalse offset).jumpTarget? ip = some exit ∧
    f.code.instrs[exit]? = some .pop ∧ behind = exit + 1

/-- What stands at the ends of a loop whose code starts at index `j`. -/
def Function.HasEnds (f : Function) (loop : Loop) (j : Nat) : Stmt -> Prop
  | .while c _ _ _ =>
    CodeAt f loop.next (c.code f.code.constants.idxOf) ∧
      f.LeavesThroughPop (loop.next + c.size) loop.behind
  | .stepping c _ _ step _ _ _ =>
    CodeAt f loop.next (step.code f.code.constants.idxOf) ∧
      CodeAt f j (c.code f.code.constants.idxOf) ∧ f.LeavesThroughPop (j + c.size) loop.behind
  | .iterate slot vars _ _ _ =>
    (exists offset, f.code.instrs[loop.next]? = some (.forNext slot vars offset)) ∧
      loop.behind = loop.next + 1
  | _ => True

/-- The loops in the body of a function, which starts at the given height, and the jumps that leave
their bodies. -/
structure Function.LoopsOf (f : Function) (height : Nat) (body : Stmt) : Prop where
  /-- A jump out of a loop forgets the locals above the loop and leads behind it. -/
  leave : forall k line j m l, (Stmt.leave k line).Inside j m l 0 height none body ->
    exists loop, l = some loop ∧ m = loop.height + k ∧
      exists offset, f.PopsAndJumps j k (.jump offset) loop.behind
  /-- A jump to the next round forgets the same locals. -/
  again : forall k line j m l, (Stmt.again k line).Inside j m l 0 height none body ->
    exists loop, l = some loop ∧ m = loop.height + k ∧
      exists offset, f.PopsAndJumps j k (.jump offset) loop.next ∨
        f.PopsAndJumps j k (.loop offset) loop.next
  ends : forall s j m l loop, s.Inside j m l 0 height none body -> s.loop? j m = some loop ->
    f.HasEnds loop j s

theorem CodeAt.popsAndJumps {f : Function} {j k line target : Nat} {i : Instr}
    (h : CodeAt f j (pops k line ++ [(i, line)])) (hi : i.jumpTarget? (j + k) = some target) :
    f.PopsAndJumps j k i target := by
  rcases along_pops_then.mp h with ⟨hpops, hjump⟩
  refine ⟨?_, hjump, hi⟩
  intro d hd
  exact along_iff.mp hpops d (.pop, line) (by simp [pops, hd])

/-- The ends of a loop stand where the loop says. -/
theorem Stmt.hasEnds {f : Function} {s : Stmt} {x : Exits} {j m : Nat} {loop : Loop}
    (hloop : s.loop? j m = some loop)
    (hcode : CodeAt f j (s.code f.code.constants.idxOf x j)) : f.HasEnds loop j s := by
  cases s with
  | «while» c line body bodyLine =>
      cases hloop
      have hparts := along_while.mp hcode
      have hexit : j + c.size + 1 + (body.size + 2) = j + c.size + body.size + 3 := by lia
      exact ⟨hparts.test, _, _, hparts.jump, by rw [Instr.jumpTarget?, hexit], hparts.stopPop,
        rfl⟩
  | stepping c line jumpLine step stepLine body bodyLine =>
      cases hloop
      have hparts := along_stepping.mp hcode
      have hexit : j + c.size + 1 + (step.size + body.size + 5) =
          j + c.size + step.size + body.size + 6 := by lia
      exact ⟨hparts.step, hparts.test, _, _, hparts.jump, by rw [Instr.jumpTarget?, hexit],
        hparts.stopPop, rfl⟩
  | iterate slot vars line body bodyLine =>
      cases hloop
      exact ⟨⟨_, (along_iterate.mp hcode).next⟩, rfl⟩
  | _ => cases hloop

section Assemble

variable {known : Nat -> Prop} {body : Stmt} {arity : Nat}

theorem assemble_loopsOf (name script : Option String) (line : Nat)
    (h : body.Fits known none (arity + 1) (arity + 1)) :
    (assemble name script arity body line).LoopsOf (arity + 1) body := by
  have hassembled : CodeAt (assemble name script arity body line) 0 (bodyLines body line) :=
    codeAt_assemble name script line
  have hcode := ((along_append _ _ _ _).mp hassembled).1
  have hout : Exits.outside.In none 0 (0 + body.size) := nofun
  exact
    { leave := by
        intro k line j m l hin
        rcases hin.fits h with ⟨floor, n, hn, hm⟩
        rcases Option.map_eq_some_iff.mp hn with ⟨loop, rfl, rfl⟩
        rcases hin.codeAt hcode hout with ⟨x, hx, hjump⟩
        have hleads : (x.leaveFrom (j + k)).jumpTarget? (j + k) = some loop.behind :=
          (hx loop rfl).leaveFrom_target (by simp [Stmt.size])
        exact ⟨loop, rfl, hm.symm, _, CodeAt.popsAndJumps hjump hleads⟩
      again := by
        intro k line j m l hin
        rcases hin.fits h with ⟨floor, n, hn, hm⟩
        rcases Option.map_eq_some_iff.mp hn with ⟨loop, rfl, rfl⟩
        rcases hin.codeAt hcode hout with ⟨x, hx, hjump⟩
        have hleads : (x.againFrom (j + k)).jumpTarget? (j + k) = some loop.next :=
          (hx loop rfl).againFrom_target (Nat.le_add_right j k) (by simp [Stmt.size])
        have hpops := CodeAt.popsAndJumps hjump hleads
        refine ⟨loop, rfl, hm.symm, ?_⟩
        cases hahead : x.ahead with
        | true =>
            rw [Exits.againFrom, if_pos hahead] at hpops
            exact ⟨_, Or.inl hpops⟩
        | false =>
            rw [Exits.againFrom, if_neg (by simp [hahead])] at hpops
            exact ⟨_, Or.inr hpops⟩
      ends := by
        intro s j m l loop hin hloop
        rcases hin.codeAt hcode hout with ⟨x, -, hat⟩
        exact Stmt.hasEnds hloop hat }

end Assemble

/-! ## Scripts -/

/-- The jumps of a function are those of its body: the ones out of loops lead where the loops say,
and the code can be written from front to back with no jump left over. -/
structure Function.JumpsOf (f : Function) (arity : Nat) (body : Stmt) (line : Nat) : Prop where
  loops : f.LoopsOf (arity + 1) body
  written : (body.emitBody line).Finishes f

theorem assemble_jumpsOf {known : Nat -> Prop} {body : Stmt} {arity : Nat}
    (name script : Option String) (line : Nat)
    (h : body.Fits known none (arity + 1) (arity + 1)) :
    (assemble name script arity body line).JumpsOf arity body line :=
  ⟨assemble_loopsOf name script line h, h.emitBody_finishes name script arity line⟩

/-- In the functions of a script that compiles, jumps out of loops lead where their innermost loop
says and forget the locals of its body, and no jump is left that was not filled in. -/
theorem compile_jumps_follow_loops {base : Nat} {name : Option String} {source : String}
    {p : Program} (h : compile base name source = .ok p) :
    exists s, parse base source = .ok s ∧ p.functions.size = s.definitions.size ∧
      (forall (i : Nat) f d, p.functions[i]? = some f -> s.definitions[i]? = some d ->
        f.JumpsOf d.arity d.body d.line) ∧ p.main.JumpsOf 0 s.body s.line := by
  rcases compile_eq_ok h with ⟨s, hs, rfl⟩
  have hfits := parse_fits hs
  refine ⟨s, hs, Script.functions_size, ?_, assemble_jumpsOf _ _ _ hfits.body⟩
  intro i f d hf hd
  rw [← Script.of_functions_getElem? hf hd]
  exact assemble_jumpsOf _ _ _ (hfits.definitions i d hd)

/-- Loops of all kinds, with jumps out of them from inside a branch, a `try` and its handler. -/
def nestedLoops : String :=
  "for let i = 0; i < 9; i += 1 \x7b let a = i; " ++
    "for k, v in [1] \x7b let b = v; if b == 2 or a \x7b continue \x7d " ++
    "try \x7b let c = b; break \x7d except e \x7b continue \x7d \x7d " ++
    "while a \x7b let d = a; if d \x7b break \x7d continue \x7d \x7d"

theorem nestedLoops_jumps_follow_loops :
    exists p, compile 0 none nestedLoops = .ok p ∧
      p.main.code.instrs.toList.countP Instr.isForward = 14 ∧
      exists s, parse 0 nestedLoops = .ok s ∧ p.functions.size = s.definitions.size ∧
        (forall (i : Nat) f d, p.functions[i]? = some f -> s.definitions[i]? = some d ->
          f.JumpsOf d.arity d.body d.line) ∧ p.main.JumpsOf 0 s.body s.line := by
  have hcount : (compile 0 none nestedLoops).toOption.map (fun p =>
      p.main.code.instrs.toList.countP Instr.isForward) = some 14 := by
    decide +kernel
  rcases exists_of_toOption_map hcount with ⟨p, h, hforward⟩
  exact ⟨p, h, hforward, compile_jumps_follow_loops h⟩

end StackScript
