import Mathlib.Data.List.Induction
import StackScript.Proofs.Code.Pool

/-!
# Operations on code

Code is empty at first, and four operations can follow each other in any order: an instruction is
written behind the others with its line, the last instructions are dropped, a constant is added, and
the line of an instruction is asked for.  An instruction has the line that it was written with for
as long as it is there.  Constants stay when instructions are dropped, so an index that was given
for a constant means this constant for good, and equal texts share one index.
-/

namespace StackScript
namespace Code

/-! ## One operation after the other -/

/-- An operation on code. -/
inductive Operation where
  | write (i : Instr) (line : Nat)
  | truncate (n : Nat)
  | addConstant (v : Value)
  | line (ip : Nat)

namespace Operation

def apply (c : Code) : Operation -> Code
  | write i l => c.write i l
  | truncate n => c.truncate n
  | addConstant v => (c.addConstant v).1
  | line _ => c

/-- The index or the line that an operation gives back. -/
def answer (c : Code) : Operation -> Option Nat
  | write _ _ => some c.size
  | truncate _ => none
  | addConstant v => some (c.addConstant v).2
  | line ip => some (c.line ip)

def Spares (op : Operation) (ip : Nat) : Prop :=
  forall n, op = truncate n -> ip < n

end Operation

def made (ops : List Operation) : Code :=
  ops.foldl (fun c op => op.apply c) empty

theorem made_concat (ops : List Operation) (op : Operation) :
    made (ops ++ [op]) = op.apply (made ops) := by
  rw [made, List.foldl_append]
  rfl

/-! ## Instructions and their lines -/

/-- The instruction at an index comes from a write with the given line: the write put it there, and
no operation since then has dropped it. -/
def WrittenAt (ops : List Operation) (ip : Nat) (i : Instr) (line : Nat) : Prop :=
  exists before behind, ops = before ++ .write i line :: behind ∧
    (Operation.write i line).answer (made before) = some ip ∧
    forall op, op ∈ behind -> op.Spares ip

section Lines

variable {c : Code} {ops : List Operation} {op : Operation} {ip line : Nat} {i : Instr}

theorem getElem?_take {α : Type} {xs : Array α} {n : Nat} (hn : ip < n) :
    (xs.take n)[ip]? = xs[ip]? := by
  rw [Array.take_eq_extract, ← Array.getElem?_toList, ← Array.getElem?_toList,
    Array.toList_extract]
  exact List.getElem?_take_of_lt hn

theorem aligned_apply (h : c.lines.size = c.instrs.size) (op : Operation) :
    (op.apply c).lines.size = (op.apply c).instrs.size := by
  cases op with
  | write i line => simp [Operation.apply, write, h]
  | truncate n => simp [Operation.apply, truncate, h]
  | addConstant v =>
      rw [Operation.apply, addConstant_eq]
      exact h
  | line ip => exact h

theorem aligned_made (ops : List Operation) :
    (made ops).lines.size = (made ops).instrs.size := by
  induction ops using List.reverseRec with
  | nil => rfl
  | append_singleton ops op ih =>
      rw [made_concat]
      exact aligned_apply ih op

/-- An instruction that is not dropped stays at its index with its line. -/
theorem stands_apply (hinstr : c.instrs[ip]? = some i) (hline : c.lines[ip]? = some line)
    (hop : op.Spares ip) :
    (op.apply c).instrs[ip]? = some i ∧ (op.apply c).lines[ip]? = some line := by
  cases op with
  | write j l =>
      obtain ⟨hi, rfl⟩ := Array.getElem?_eq_some_iff.mp hinstr
      obtain ⟨hl, rfl⟩ := Array.getElem?_eq_some_iff.mp hline
      exact ⟨Array.getElem?_push_lt hi, Array.getElem?_push_lt hl⟩
  | truncate n =>
      have hn : ip < n := hop n rfl
      constructor
      · exact (getElem?_take hn).trans hinstr
      · exact (getElem?_take hn).trans hline
  | addConstant v =>
      rw [Operation.apply, addConstant_eq]
      exact ⟨hinstr, hline⟩
  | line ip => exact ⟨hinstr, hline⟩

/-- What was written is at its index now, with its line. -/
theorem WrittenAt.stands (h : WrittenAt ops ip i line) :
    (made ops).instrs[ip]? = some i ∧ (made ops).lines[ip]? = some line := by
  obtain ⟨before, behind, rfl, hip, hbehind⟩ := h
  -- The induction takes the operations behind the write one by one.
  induction behind using List.reverseRec with
  | nil =>
      rw [made_concat, ← Option.some.inj hip]
      constructor
      · exact Array.getElem?_push_size
      · have halign : (made before).size = (made before).lines.size := (aligned_made before).symm
        rw [halign]
        exact Array.getElem?_push_size
  | append_singleton behind op ih =>
      have hstands := ih fun o ho => hbehind o (List.mem_append_left _ ho)
      have hop := hbehind op (List.mem_append_right _ List.mem_cons_self)
      rw [← List.cons_append, ← List.append_assoc, made_concat]
      exact stands_apply hstands.1 hstands.2 hop

theorem WrittenAt.concat (h : WrittenAt ops ip i line) (hop : op.Spares ip) :
    WrittenAt (ops ++ [op]) ip i line := by
  obtain ⟨before, behind, rfl, hip, hbehind⟩ := h
  refine ⟨before, behind ++ [op], by rw [List.append_assoc, List.cons_append], hip, ?_⟩
  intro o ho
  rcases List.mem_append.mp ho with ho | ho
  · exact hbehind o ho
  · rw [List.mem_singleton.mp ho]
    exact hop

/-- An instruction behind an operation was there before and is not dropped, or is the one that
the operation writes. -/
theorem cases_of_lt_size (h : ip < (op.apply c).size) :
    (ip < c.size ∧ op.Spares ip) ∨ exists i line, op = .write i line ∧ c.size = ip := by
  cases op with
  | write i line =>
      have hle : ip < c.size + 1 := by simpa [Operation.apply, write, size] using h
      rcases Nat.lt_succ_iff_lt_or_eq.mp hle with hlt | heq
      · exact Or.inl ⟨hlt, nofun⟩
      · exact Or.inr ⟨i, line, rfl, heq.symm⟩
  | truncate n =>
      have hboth : ip < n ∧ ip < c.size := by
        simpa [Operation.apply, truncate, size, Nat.lt_min] using h
      refine Or.inl ⟨hboth.2, ?_⟩
      intro m hm
      cases hm
      exact hboth.1
  | addConstant v =>
      rw [Operation.apply, addConstant_eq] at h
      exact Or.inl ⟨h, nofun⟩
  | line ip => exact Or.inl ⟨h, nofun⟩

theorem exists_writtenAt (h : ip < (made ops).size) : exists i line, WrittenAt ops ip i line := by
  induction ops using List.reverseRec with
  | nil => exact absurd h (Nat.not_lt_zero ip)
  | append_singleton ops op ih =>
      rw [made_concat] at h
      rcases cases_of_lt_size h with ⟨hlt, hop⟩ | ⟨i, line, rfl, hsize⟩
      · obtain ⟨i, line, hwritten⟩ := ih hlt
        exact ⟨i, line, hwritten.concat hop⟩
      · exact ⟨i, line, ops, [], rfl, congrArg some hsize, nofun⟩

theorem line_eq (hline : c.lines[ip]? = some line) : c.line ip = line := by
  rw [Code.line, Array.getD_eq_getD_getElem?, hline, Option.getD_some]

theorem line_past_end (halign : c.lines.size = c.instrs.size) (h : c.size <= ip) :
    c.line ip = 0 := by
  have hnone : c.lines[ip]? = none := Array.getElem?_eq_none (halign ▸ h)
  rw [Code.line, Array.getD_eq_getD_getElem?, hnone, Option.getD_none]

end Lines

/-! ## Constants and their indices -/

def TextsOnce (pool : Array Value) : Prop :=
  forall (j k : Nat) (s : String), pool[j]? = some (.text s) -> pool[k]? = some (.text s) -> j = k

section Constants

variable {c : Code} {v : Value} {k : Nat}

theorem prefix_apply (c : Code) (op : Operation) :
    c.constants.toList <+: (op.apply c).constants.toList := by
  cases op with
  | addConstant v => exact prefix_addConstant c v
  | write | truncate | line => exact List.prefix_refl _

/-- Constants are never taken away and never moved. -/
theorem prefix_made (before behind : List Operation) :
    (made before).constants.toList <+: (made (before ++ behind)).constants.toList := by
  induction behind using List.reverseRec with
  | nil => simp
  | append_singleton behind op ih =>
      rw [← List.append_assoc, made_concat]
      exact ih.trans (prefix_apply _ op)

theorem getElem?_made {before : List Operation} (h : (made before).constants[k]? = some v)
    (behind : List Operation) : (made (before ++ behind)).constants[k]? = some v := by
  obtain ⟨rest, hrest⟩ := prefix_made before behind
  rw [← Array.getElem?_toList] at h ⊢
  rw [← hrest]
  have hk := (List.getElem?_eq_some_iff.mp h).1
  rw [List.getElem?_append_left hk]
  exact h

theorem TextsOnce.push {pool : Array Value} (h : TextsOnce pool)
    (hv : forall s, v = .text s -> .text s ∉ pool) : TextsOnce (pool.push v) := by
  have hnew {j : Nat} {s : String} (hj : pool[j]? = some (.text s)) : v ≠ .text s :=
    fun heq => hv s heq (Array.mem_of_getElem? hj)
  intro j k s hj hk
  rw [Array.getElem?_push] at hj hk
  split at hj
  · split at hk
    · rename_i hj' hk'
      rw [hj', hk']
    · exact absurd (Option.some.inj hj) (hnew hk)
  · split at hk
    · exact absurd (Option.some.inj hk) (hnew hj)
    · exact h j k s hj hk

theorem TextsOnce.addConstant (h : TextsOnce c.constants) (v : Value) :
    TextsOnce (c.addConstant v).1.constants := by
  unfold Code.addConstant
  cases hidx : c.textIndex? v with
  | some k => exact h
  | none =>
      apply h.push
      intro s hs hmem
      rw [hs] at hidx
      simpa [hidx] using textIndex?_isSome hmem

theorem textsOnce_made (ops : List Operation) : TextsOnce (made ops).constants := by
  induction ops using List.reverseRec with
  | nil =>
      intro j k s hj
      cases hj
  | append_singleton ops op ih =>
      rw [made_concat]
      cases op with
      | addConstant v => exact ih.addConstant v
      | write | truncate | line => exact ih

end Constants

/-! ## What operations keep -/

/-- Whatever operations have made code, there are as many lines as instructions, and each
instruction comes from a write.  An instruction that comes from a write is the one written, and the
line asked for at its index is the line it was written with; behind the last instruction the line
is zero.  The index given for a constant is that of this very constant, then and for good, and no
two constants are equal texts. -/
theorem operations_keep_lines_and_constants (ops : List Operation) :
    (made ops).lines.size = (made ops).size ∧
    (forall ip, ip < (made ops).size -> exists i line, WrittenAt ops ip i line) ∧
    (forall ip i line, WrittenAt ops ip i line ->
      (made ops).instrs[ip]? = some i ∧
        (Operation.line ip).answer (made ops) = some line) ∧
    (forall ip, (made ops).size <= ip -> (Operation.line ip).answer (made ops) = some 0) ∧
    (forall before v behind, ops = before ++ .addConstant v :: behind ->
      exists k : Nat, (Operation.addConstant v).answer (made before) = some k ∧
        (made (before ++ [.addConstant v])).constants[k]? = some v ∧
        (made ops).constants[k]? = some v) ∧
    TextsOnce (made ops).constants := by
  have halign := aligned_made ops
  refine ⟨halign, fun ip => exists_writtenAt, ?_, ?_, ?_, textsOnce_made ops⟩
  · intro ip i line hwritten
    obtain ⟨hinstr, hline⟩ := hwritten.stands
    exact ⟨hinstr, congrArg some (line_eq hline)⟩
  · intro ip hip
    exact congrArg some (line_past_end halign hip)
  · rintro before v behind rfl
    have hadded : (made (before ++ [.addConstant v])).constants[((made before).addConstant v).2]? =
        some v := by
      rw [made_concat]
      exact getElem?_addConstant (made before) v
    have hkept := getElem?_made hadded behind
    rw [List.append_assoc, List.singleton_append] at hkept
    exact ⟨_, rfl, hadded, hkept⟩

/-- A text is added again after an instruction has been dropped. -/
def rewritten : List Operation :=
  [.addConstant (.text "x"), .write (.constant 0) 1, .write .pop 1, .truncate 1,
    .addConstant (.integer 1), .addConstant (.text "x"), .write .echo 2]

theorem rewritten_keeps_lines_and_constants :
    (1 < (made rewritten).size ∧ exists i line, WrittenAt rewritten 1 i line) ∧
    (WrittenAt rewritten 1 .echo 2 ∧ (Operation.line 1).answer (made rewritten) = some 2) ∧
    ((made rewritten).size <= 2 ∧ (Operation.line 2).answer (made rewritten) = some 0) ∧
    (Operation.addConstant (.text "x")).answer (made (rewritten.take 5)) = some 0 ∧
    (made rewritten).constants[0]? = some (.text "x") := by
  have hsize : (made rewritten).size = 2 := by decide +kernel
  have hwritten : WrittenAt rewritten 1 .echo 2 :=
    ⟨rewritten.take 6, [], rfl, by decide +kernel, nofun⟩
  have hagain : (Operation.addConstant (.text "x")).answer (made (rewritten.take 5)) = some 0 := by
    decide +kernel
  obtain ⟨-, hthere, hline, hbehind, hindex, -⟩ := operations_keep_lines_and_constants rewritten
  obtain ⟨k, hk, -, hconstant⟩ := hindex (rewritten.take 5) (.text "x") [.write .echo 2] rfl
  cases hagain.symm.trans hk
  have hlong : 1 < (made rewritten).size := Nat.lt_of_lt_of_eq (by decide) hsize.symm
  have hend : (made rewritten).size <= 2 := Nat.le_of_eq hsize
  exact ⟨⟨hlong, hthere 1 hlong⟩, ⟨hwritten, (hline 1 .echo 2 hwritten).2⟩,
    ⟨hend, hbehind 2 hend⟩, hagain, hconstant⟩

end Code
end StackScript
