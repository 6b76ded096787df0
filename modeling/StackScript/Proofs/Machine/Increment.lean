import StackScript.Proofs.Machine.Evaluation

/-!
# Adding to a local in one instruction

Adding an integer literal to a local takes one instruction instead of four.  The one does what the
four do, on any machine: it ends with the same stack, or it fails in the same way and leaves the
stack as the addition leaves it.
-/

namespace StackScript

/-! ## The instructions -/

namespace Exec

/-- Adding an integer to a local, instruction by instruction. -/
def addToLocal (slot : Nat) (n : Int64) : Exec Unit := do
  step (.getLocal slot)
  step (.literal (.int n))
  step (.binary (.arith .add))
  step (.setLocal slot)

section Add

variable {m : Machine} {f : Frame} {rest : List Frame} {slot : Nat} {n : Int64} {old new : Value}
variable {fault : Fault}

theorem perform_sum_ok (hsum : old.add m.heap (.integer n) = .ok new) :
    perform (fun h => answer h (old.add h (.integer n))) m = .ok new m := by
  rw [perform_answer, hsum]

theorem perform_sum_error (hsum : old.add m.heap (.integer n) = .error fault) :
    perform (fun h => answer h (old.add h (.integer n))) m = .error (.fault fault) m := by
  rw [perform_answer, hsum]

theorem getLocal_no_frame (hf : m.frames = []) :
    getLocal slot m = .error (.fault .noActiveFrame) m := by
  unfold getLocal frame
  rw [bind_error]
  rw [bind_ok get_apply, hf]
  rfl

theorem step_getLocal (hf : m.frames = f :: rest) (hv : m.stack[f.base + slot]? = some old) :
    step (.getLocal slot) m = .ok () { m with stack := m.stack.push old } := by
  rw [step, bind_ok (getLocal_apply hf hv)]
  rfl

/-- The addition takes both operands, whether it fails or not. -/
theorem step_add_ok (hsum : old.add m.heap (.integer n) = .ok new) :
    step (.binary (.arith .add)) { m with stack := (m.stack.push old).push (.integer n) } =
      .ok () { m with stack := m.stack.push new } := by
  rw [step, bind_ok (pop_apply rfl), bind_ok (pop_apply rfl)]
  exact bind_ok (perform_sum_ok hsum)

theorem step_add_error (hsum : old.add m.heap (.integer n) = .error fault) :
    step (.binary (.arith .add)) { m with stack := (m.stack.push old).push (.integer n) } =
      .error (.fault fault) m := by
  rw [step, bind_ok (pop_apply rfl), bind_ok (pop_apply rfl)]
  exact bind_error (perform_sum_error hsum)

theorem setIfInBounds_push {s : Array Value} {v w : Value} {i : Nat} (hi : i < s.size) :
    (s.push v).setIfInBounds i w = (s.setIfInBounds i w).push v := by
  rw [Array.setIfInBounds, dif_pos (by simp; lia), Array.setIfInBounds, dif_pos hi,
    Array.set_push, dif_pos hi]

theorem step_setLocal_top (hf : m.frames = f :: rest) (hlt : f.base + slot < m.stack.size) :
    step (.setLocal slot) { m with stack := m.stack.push new } =
      .ok () { m with stack := (m.stack.setIfInBounds (f.base + slot) new).push new } := by
  have hset : setLocal slot new { m with stack := m.stack.push new } = _ :=
    setLocal_apply hf (by simp; lia)
  rw [step, bind_ok (peek_zero_apply rfl), hset, setIfInBounds_push hlt]

theorem step_increment_ok (hf : m.frames = f :: rest) (hv : m.stack[f.base + slot]? = some old)
    (hsum : old.add m.heap (.integer n) = .ok new) :
    step (.increment slot n) m = .ok () { m with
      stack := (m.stack.setIfInBounds (f.base + slot) new).push new } := by
  have hlt := (Array.getElem?_eq_some_iff.mp hv).1
  have hadd : incrementLocal slot n m = .ok new { m with
      stack := m.stack.setIfInBounds (f.base + slot) new } := by
    unfold incrementLocal
    rw [bind_ok (getLocal_apply hf hv), bind_ok (perform_sum_ok hsum),
      bind_ok (setLocal_apply hf hlt)]
    rfl
  rw [step, bind_ok hadd]
  rfl

theorem step_increment_error (hf : m.frames = f :: rest)
    (hv : m.stack[f.base + slot]? = some old) (hsum : old.add m.heap (.integer n) = .error fault) :
    step (.increment slot n) m = .error (.fault fault) m := by
  have hadd : incrementLocal slot n m = .error (.fault fault) m := by
    unfold incrementLocal
    rw [bind_ok (getLocal_apply hf hv), bind_error (perform_sum_error hsum)]
  rw [step, bind_error hadd]

/-- A local that is not there makes both fail, before anything is done. -/
theorem addToLocal_of_getLocal_outside {e : Raised} (h : getLocal slot m = .error e m) :
    addToLocal slot n m = step (.increment slot n) m := by
  have hslow : addToLocal slot n m = .error e m := by
    rw [addToLocal, bind_error]
    rw [step, bind_error h]
  have hadd : incrementLocal slot n m = .error e m := by
    rw [incrementLocal, bind_error h]
  rw [hslow, step, bind_error hadd]

/-- On any machine the four instructions do the same as the one. -/
theorem addToLocal_eq (m : Machine) (slot : Nat) (n : Int64) :
    addToLocal slot n m = step (.increment slot n) m := by
  cases hf : m.frames with
  | nil => exact addToLocal_of_getLocal_outside (getLocal_no_frame hf)
  | cons f rest =>
      cases hv : m.stack[f.base + slot]? with
      | none => exact addToLocal_of_getLocal_outside (getLocal_outside hf hv)
      | some old =>
          have hlt := (Array.getElem?_eq_some_iff.mp hv).1
          have hpush : step (.literal (.int n)) { m with stack := m.stack.push old } =
              .ok () { m with stack := (m.stack.push old).push (.integer n) } := rfl
          rw [addToLocal, bind_ok (step_getLocal hf hv), bind_ok hpush]
          cases hsum : old.add m.heap (.integer n) with
          | ok new =>
              rw [bind_ok (step_add_ok hsum), step_setLocal_top hf hlt,
                step_increment_ok hf hv hsum]
          | error fault => rw [bind_error (step_add_error hsum), step_increment_error hf hv hsum]

end Add
end Exec

/-! ## Turns inside a call -/

namespace Machine

def within (m : Machine) (f : Frame) : Machine :=
  { m with frames := f :: m.frames }

section Within

variable {m m' : Machine} {f : Frame} {i : Instr} {e : Raised}

theorem tick_within_ok (hi : (m.heap.function f.function).code.instrs[f.ip]? = some i)
    (hstep : Exec.step i (m.within { f with ip := f.ip + 1 }) = .ok () m') :
    (m.within f).tick = (.running, m') :=
  tick_of_ok rfl hi hstep

theorem tick_within_error (hi : (m.heap.function f.function).code.instrs[f.ip]? = some i)
    (hstep : Exec.step i (m.within { f with ip := f.ip + 1 }) = .error e m') :
    (m.within f).raised? = some e ∧ (m.within f).tick = m'.unwind e.toValue :=
  ⟨raised?_of_error rfl hi hstep, tick_of_error rfl hi hstep⟩

theorem run_one {m m' : Machine} (h : m.tick = (.running, m')) : m.run 1 = (.running, m') :=
  run_succ_of_tick h 0

/-- On top of the machine a call `f` that adds in four instructions does what a call `g` does in
one.  Either both store the sum and have it on the stack, or the addition fails in both, with the
stack as it was. -/
def AddsAlike (m : Machine) (f g : Frame) : Prop :=
  (exists m' : Machine, m'.frames = m.frames ∧
    (m.within f).run 4 = (.running, m'.within { f with ip := f.ip + 4 }) ∧
    (m.within g).run 1 = (.running, m'.within { g with ip := g.ip + 1 })) ∨
  (exists fault, exists m' : Machine, (m.within f).run 2 = (.running, m') ∧
    m'.raised? = some (.fault fault) ∧
    m'.tick = (m.within { f with ip := f.ip + 3 }).unwind fault.value ∧
    (m.within g).raised? = some (.fault fault) ∧
    (m.within g).tick = (m.within { g with ip := g.ip + 1 }).unwind fault.value)

/-- Of two calls with the same locals one adds an integer to a local in four instructions and the
other in one. -/
theorem addsAlike (m : Machine) {f g : Frame} {slot : Nat} {n : Int64}
    {lines : Lines} {line : Nat} (hbase : g.base = f.base)
    (hslot : f.base + slot < m.stack.size)
    (hlines : lines.map Prod.fst =
      [.getLocal slot, .literal (.int n), .binary (.arith .add), .setLocal slot])
    (hf : CodeAt (m.heap.function f.function) f.ip lines)
    (hg : CodeAt (m.heap.function g.function) g.ip [(.increment slot n, line)]) :
    m.AddsAlike f g := by
  have hv : m.stack[f.base + slot]? = some m.stack[f.base + slot] :=
    Array.getElem?_eq_getElem hslot
  generalize m.stack[f.base + slot] = old at hv
  rcases g with ⟨id, ip, base⟩
  subst hbase
  obtain ⟨l1, l2, l3, l4, rfl⟩ : exists l1 l2 l3 l4, lines = [(.getLocal slot, l1),
      (.literal (.int n), l2), (.binary (.arith .add), l3), (.setLocal slot, l4)] := by
    rcases lines with _ | ⟨⟨i1, l1⟩, _ | ⟨⟨i2, l2⟩, _ | ⟨⟨i3, l3⟩, _ | ⟨⟨i4, l4⟩, _ | ⟨x, lines⟩⟩⟩⟩⟩
      <;> simp at hlines
    rcases hlines with ⟨rfl, rfl, rfl, rfl⟩
    exact ⟨l1, l2, l3, l4, rfl⟩
  rcases hf with ⟨hget, hlit, hadd, hset, -⟩
  have hinc : (m.heap.function id).code.instrs[ip]? = some (.increment slot n) := hg.1
  let g : Frame := ⟨id, ip, f.base⟩
  -- The two operands are pushed in any case.
  let m1 : Machine := { m with stack := m.stack.push old }
  let m2 : Machine := { m with stack := (m.stack.push old).push (.integer n) }
  have htick1 : (m.within f).tick = (.running, m1.within { f with ip := f.ip + 1 }) :=
    tick_within_ok hget (Exec.step_getLocal rfl hv)
  have htick2 : (m1.within { f with ip := f.ip + 1 }).tick =
      (.running, m2.within { f with ip := f.ip + 2 }) := tick_within_ok hlit rfl
  have hrun2 : (m.within f).run 2 = (.running, m2.within { f with ip := f.ip + 2 }) := by
    rw [run_succ_of_tick htick1, run_one htick2]
  cases hsum : old.add m.heap (.integer n) with
  | ok new =>
      let m3 : Machine := { m with stack := m.stack.push new }
      let m4 : Machine := { m with
        stack := (m.stack.setIfInBounds (f.base + slot) new).push new }
      have htick3 : (m2.within { f with ip := f.ip + 2 }).tick =
          (.running, m3.within { f with ip := f.ip + 3 }) :=
        tick_within_ok hadd (Exec.step_add_ok (m := m.within { f with ip := f.ip + 3 }) hsum)
      have htick4 : (m3.within { f with ip := f.ip + 3 }).tick =
          (.running, m4.within { f with ip := f.ip + 4 }) :=
        tick_within_ok hset (Exec.step_setLocal_top (f := { f with ip := f.ip + 4 })
          (m := m.within { f with ip := f.ip + 4 }) rfl hslot)
      refine Or.inl ⟨m4, rfl, ?_, ?_⟩
      · rw [run_add hrun2 2, run_succ_of_tick htick3, run_one htick4]
      · exact run_one (tick_within_ok (f := g) hinc
          (Exec.step_increment_ok (f := { g with ip := ip + 1 })
            (m := m.within { g with ip := ip + 1 }) rfl hv hsum))
  | error fault =>
      have hstep : Exec.step (.binary (.arith .add)) (m2.within { f with ip := f.ip + 3 }) =
          .error (.fault fault) (m.within { f with ip := f.ip + 3 }) :=
        Exec.step_add_error (m := m.within { f with ip := f.ip + 3 }) hsum
      have hfails := tick_within_error (m := m2) (f := { f with ip := f.ip + 2 }) hadd hstep
      have hfails' := tick_within_error (f := g) hinc
        (Exec.step_increment_error (f := { g with ip := ip + 1 })
          (m := m.within { g with ip := ip + 1 }) rfl hv hsum)
      exact Or.inr ⟨fault, _, hrun2, hfails.1, hfails.2, hfails'.1, hfails'.2⟩

end Within
end Machine
end StackScript
