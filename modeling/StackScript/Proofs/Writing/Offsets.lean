import StackScript.Proofs.Tries

/-!
# Jumps whose offset comes later

A jump to a place that is not reached yet is written without an offset, which is filled in when the
place is reached.  Filling in the jumps out of a loop's body gives the code of the body between
other exits.
-/

namespace StackScript

/-- The instruction with another offset, if it can jump forwards. -/
def Instr.aim (offset : Nat) : Instr -> Instr
  | jump _ => jump offset
  | jumpIfFalse _ => jumpIfFalse offset
  | jumpIfTrue _ => jumpIfTrue offset
  | forBegin slot vars _ => forBegin slot vars offset
  | i => i

def Instr.isForward : Instr -> Bool
  | jump _ | jumpIfFalse _ | jumpIfTrue _ | forBegin _ _ _ => true
  | _ => false

/-- Lets the jump at an index lead to the index `target`. -/
def aimAt (target : Nat) (code : Lines) (ip : Nat) : Lines :=
  code.modify ip fun entry => (entry.1.aim (target - (ip + 1)), entry.2)

@[simp] theorem Instr.isForward_aim (i : Instr) (n : Nat) : (i.aim n).isForward = i.isForward := by
  cases i <;> rfl

@[simp] theorem length_aimAt (target : Nat) (code : Lines) (ip : Nat) :
    (aimAt target code ip).length = code.length := by
  simp [aimAt]

theorem aimAt_middle (target line : Nat) (before behind : Lines) (i : Instr) :
    aimAt target (before ++ (i, line) :: behind) before.length =
      before ++ (i.aim (target - (before.length + 1)), line) :: behind := by
  simp [aimAt, List.modify_eq_take_cons_drop]

/-- The indices of the forward jumps in code that starts at index `ip`, the last one first. -/
def forwardJumps (ip : Nat) : Lines -> List Nat
  | [] => []
  | (i, _) :: rest => forwardJumps (ip + 1) rest ++ if i.isForward then [ip] else []

theorem forwardJumps_append (ip : Nat) (a b : Lines) :
    forwardJumps ip (a ++ b) = forwardJumps (ip + a.length) b ++ forwardJumps ip a := by
  induction a generalizing ip with
  | nil => simp [forwardJumps]
  | cons x a ih =>
      rw [List.cons_append, forwardJumps, forwardJumps, ih, List.append_assoc, List.length_cons,
        show ip + 1 + a.length = ip + (a.length + 1) by lia]

theorem forwardJumps_map {a b : Lines} {ip : Nat}
    (h : a.map (fun x => x.1.isForward) = b.map (fun x => x.1.isForward)) :
    forwardJumps ip a = forwardJumps ip b := by
  induction a generalizing b ip with
  | nil =>
      cases b with
      | nil => rfl
      | cons y b => cases h
  | cons x a ih =>
      cases b with
      | nil => cases h
      | cons y b =>
          simp only [List.map_cons, List.cons.injEq] at h
          rw [forwardJumps, forwardJumps, ih h.2, h.1]

theorem mem_forwardJumps {ip j : Nat} {code : Lines} :
    j ∈ forwardJumps ip code ↔
      ip <= j ∧ exists i line, code[j - ip]? = some (i, line) ∧ i.isForward = true := by
  induction code generalizing ip with
  | nil => simp [forwardJumps]
  | cons x code ih =>
      rcases x with ⟨i, line⟩
      rw [forwardJumps, List.mem_append, ih]
      rcases Nat.lt_trichotomy j ip with hlt | rfl | hgt
      · have hif : j ∉ if i.isForward then [ip] else [] := by
          split <;> simp
          lia
        simp only [hif, or_false]
        lia
      · have hbehind : ¬ j + 1 <= j := Nat.not_succ_le_self j
        cases hi : i.isForward <;> simp [hi, hbehind]
      · have hif : j ∉ if i.isForward then [ip] else [] := by
          split <;> simp
          lia
        simp only [hif, or_false]
        rw [show j - ip = j - (ip + 1) + 1 by lia, List.getElem?_cons_succ]
        have hle : ip <= j ↔ ip + 1 <= j := by lia
        rw [hle]

theorem nodup_forwardJumps (ip : Nat) (code : Lines) : (forwardJumps ip code).Nodup := by
  induction code generalizing ip with
  | nil => exact .nil
  | cons x code ih =>
      rw [forwardJumps]
      refine List.nodup_append.mpr ⟨ih _, ?_, ?_⟩
      · split <;> simp
      · intro i hi j hj
        have := (mem_forwardJumps.mp hi).1
        have hj' : j = ip := by
          split at hj
          · exact List.mem_singleton.mp hj
          · cases hj
        lia

theorem map_isForward_aimAt (target : Nat) (code : Lines) (ip : Nat) :
    (aimAt target code ip).map (fun x => x.1.isForward) =
      code.map (fun x => x.1.isForward) := by
  refine List.ext_getElem? ?_
  intro j
  simp only [aimAt, List.getElem?_map, List.getElem?_modify, Option.map_eq_map, Option.map_map]
  refine congrArg (fun g => Option.map g code[j]?) (funext ?_)
  intro x
  by_cases h : ip = j <;> simp [h]

theorem map_isForward_foldl_aimAt (target : Nat) (ips : List Nat) (code : Lines) :
    (ips.foldl (aimAt target) code).map (fun x => x.1.isForward) =
      code.map (fun x => x.1.isForward) := by
  induction ips generalizing code with
  | nil => rfl
  | cons ip ips ih => rw [List.foldl_cons, ih, map_isForward_aimAt]

theorem Connective.isForward_jump (op : Connective) : (op.jump 0).isForward = true := by
  cases op <;> rfl

theorem Connective.aim_jump (op : Connective) (n : Nat) : (op.jump 0).aim n = op.jump n := by
  cases op <;> rfl

/-! ## Jumps out of a loop's body -/

/-- The ways out of a loop's body. -/
inductive Way where
  | leave
  | again
  deriving DecidableEq

/-- The exits with one way leading to the index `target`. -/
def Exits.toward (x : Exits) (target : Nat) : Way -> Exits
  | .leave => { x with leave := target }
  | .again => { x with again := target }

/-- The jumps out of the loop around a statement at index `ip` that take the given way, the last one
first. -/
def Stmt.exitsBy (w : Way) (ip : Nat) : Stmt -> List Nat
  | .seq a b => b.exitsBy w (ip + a.size) ++ a.exitsBy w ip
  | .leave n _ => if w = .leave then [ip + n] else []
  | .again n _ => if w = .again then [ip + n] else []
  | .cond c _ body _ other =>
    other.exitsBy w (ip + c.size + body.size + 4) ++ body.exitsBy w (ip + c.size + 2)
  | .try _ body _ handler => handler.exitsBy w (ip + body.size + 1) ++ body.exitsBy w ip
  | _ => []

/-- A statement has no jumps out of a loop where there is none. -/
theorem Stmt.Fits.exitsBy_eq_nil {known : Nat -> Prop} {floor n : Nat} {s : Stmt}
    (h : s.Fits known none floor n) (w : Way) (ip : Nat) : s.exitsBy w ip = [] := by
  induction s generalizing floor n ip with
  | seq a b iha ihb => rw [Stmt.exitsBy, iha h.1, ihb h.2, List.append_nil]
  | leave | again =>
      rcases h with ⟨_, hloop, -⟩
      cases hloop
  | cond c line body bodyLine other ihb iho =>
      rw [Stmt.exitsBy, ihb h.2.1.1, iho h.2.2.1, List.append_nil]
  | «try» depth body bodyLine handler ihb ihh =>
      rw [Stmt.exitsBy, ihb h.2.1.1, ihh h.2.2.1, List.append_nil]
  | _ => rfl

section Aim

variable {k : Variable.Index} {x : Exits}

/-- Filling in the jumps that take one way gives the code of the statement between other exits. -/
theorem Stmt.aim_exitsBy (w : Way) (s : Stmt) (target ip : Nat) (before behind : Lines)
    (hip : before.length = ip) (hahead : w = .again -> x.ahead = true) :
    (s.exitsBy w ip).foldl (aimAt target) (before ++ s.code k x ip ++ behind) =
      before ++ s.code k (x.toward target w) ip ++ behind := by
  induction s generalizing before behind ip with
  | seq a b iha ihb =>
      have hb := ihb (ip + a.size) (before ++ a.code k x ip) behind (by simp [hip])
      have ha := iha ip before (b.code k (x.toward target w) (ip + a.size) ++ behind) hip
      simp only [List.append_assoc] at ha hb
      simp only [Stmt.exitsBy, Stmt.code, List.foldl_append, List.append_assoc, hb, ha]
  | leave n line =>
      cases w with
      | again => rfl
      | leave =>
          have hlen : (before ++ pops n line).length = ip + n := by simp [hip]
          have haim := aimAt_middle target line (before ++ pops n line) behind
            (x.leaveFrom (ip + n))
          simpa [Stmt.exitsBy, Stmt.code, hlen, Exits.leaveFrom, Exits.toward, Instr.aim] using haim
  | again n line =>
      cases w with
      | leave => rfl
      | again =>
          have hlen : (before ++ pops n line).length = ip + n := by simp [hip]
          have haim := aimAt_middle target line (before ++ pops n line) behind
            (x.againFrom (ip + n))
          simpa [Stmt.exitsBy, Stmt.code, hlen, Exits.againFrom, Exits.toward, Instr.aim,
            hahead rfl] using haim
  | cond c line body bodyLine other ihb iho =>
      have ho := iho (ip + c.size + body.size + 4) (before ++ c.code k ++
        (.jumpIfFalse (body.size + 2), line) :: (.pop, line) :: body.code k x (ip + c.size + 2) ++
        [(Instr.jump (other.size + 1), bodyLine), (.pop, bodyLine)]) behind (by simp [hip]; lia)
      have hb := ihb (ip + c.size + 2) (before ++ c.code k ++
        [(Instr.jumpIfFalse (body.size + 2), line), (.pop, line)])
        ((.jump (other.size + 1), bodyLine) :: (.pop, bodyLine) ::
          other.code k (x.toward target w) (ip + c.size + body.size + 4) ++ behind)
        (by simp [hip]; lia)
      simp only [List.append_assoc, List.cons_append, List.nil_append] at ho hb
      simp only [Stmt.exitsBy, Stmt.code, List.foldl_append, List.append_assoc, List.cons_append,
        ho, hb]
  | «try» depth body bodyLine handler ihb ihh =>
      have hh := ihh (ip + body.size + 1) (before ++ body.code k x ip ++
        [(Instr.jump handler.size, bodyLine)]) behind (by simp [hip]; lia)
      have hb := ihb ip before ((.jump handler.size, bodyLine) ::
        handler.code k (x.toward target w) (ip + body.size + 1) ++ behind) hip
      simp only [List.append_assoc, List.cons_append, List.nil_append] at hh hb
      simp only [Stmt.exitsBy, Stmt.code, List.foldl_append, List.append_assoc, List.cons_append,
        hh, hb]
  | _ => cases w <;> rfl

end Aim

end StackScript
