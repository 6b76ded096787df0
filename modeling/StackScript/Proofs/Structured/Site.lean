import StackScript.Proofs.Machine.Soundness
import StackScript.Proofs.Machine.Steps
import StackScript.Proofs.Structured.Semantics

/-!
# The machine under a structured program

While a script without calls is run, only the outermost call is in progress, and the
stack holds the locals of the script with the operands in use above them.  The states of
such a run are given by an index into the code, the values of the call and a world.

Each instruction that a structured program uses has an equation here that says what it
makes of such a state.
-/

namespace StackScript

/-! ## States -/

/-- Where a script is run: the machine below its call and the number of its function. -/
structure Site where
  machine : Machine
  id : Nat

namespace Site

variable (S : Site)

/-- The heap, which no structured program changes. -/
def heap : Heap :=
  S.machine.heap

def function : Function :=
  S.heap.function S.id

/-- The machine in front of an instruction of the script, with the given values above the slot of
the script itself. -/
def state (ip : Nat) (values : List Value) (w : World) : Machine :=
  { S.machine with
    globals := w.globals
    output := w.output
    frames := [⟨S.id, ip, S.machine.stack.size⟩]
    stack := S.machine.stack ++ (.function S.id :: values).toArray }

/-- Where the handler for an instruction begins, and how many values it finds. -/
def handler? (ip : Nat) : Option (Nat × Nat) :=
  (S.function.findRange? ip).map fun r => (r.stop, r.depth)

variable {S} {ip : Nat} {vs : List Value} {v : Value} {w : World}

theorem stack_concat :
    (S.state ip (vs ++ [v]) w).stack = (S.state ip vs w).stack.push v := by
  simp [state]

theorem tick_of_ok {i : Instr} {m : Machine} (hi : S.function.code.instrs[ip]? = some i)
    (hstep : Exec.step i (S.state (ip + 1) vs w) = .ok () m) :
    (S.state ip vs w).tick = (.running, m) :=
  Machine.tick_of_ok rfl hi hstep

theorem tick_of_error {i : Instr} {m : Machine} {raised : Raised}
    (hi : S.function.code.instrs[ip]? = some i)
    (hstep : Exec.step i (S.state (ip + 1) vs w) = .error raised m) :
    (S.state ip vs w).tick = m.unwind raised.toValue ∧
      (S.state ip vs w).raised? = some raised :=
  ⟨Machine.tick_of_error rfl hi hstep, Machine.raised?_of_error rfl hi hstep⟩

theorem goes_of_ok {i : Instr} {m : Machine} (hi : S.function.code.instrs[ip]? = some i)
    (hstep : Exec.step i (S.state (ip + 1) vs w) = .ok () m) :
    Machine.Goes 1 (S.state ip vs w) m :=
  .tick (tick_of_ok hi hstep)

/-! ## Pieces of instructions -/

theorem push_state : Exec.push v (S.state ip vs w) = .ok () (S.state ip (vs ++ [v]) w) := by
  rw [Exec.push_apply, ← stack_concat]
  rfl

theorem pop_state : Exec.pop (S.state ip (vs ++ [v]) w) = .ok v (S.state ip vs w) :=
  Exec.pop_apply stack_concat

theorem peek_state :
    Exec.peek 0 (S.state ip (vs ++ [v]) w) = .ok v (S.state ip (vs ++ [v]) w) :=
  Exec.peek_zero_apply stack_concat

theorem constant_state {k : Nat} (hk : S.function.code.constants[k]? = some v) :
    Exec.constant k (S.state ip vs w) = .ok v (S.state ip vs w) :=
  Exec.constant_apply rfl hk

theorem name_state {k : Nat} {x : String} (hk : S.function.code.constants[k]? = some (.text x)) :
    Exec.name k (S.state ip vs w) = .ok x (S.state ip vs w) :=
  Exec.name_apply rfl hk

theorem getLocal_state {n : Nat} (hv : vs[n]? = some v) :
    Exec.getLocal (n + 1) (S.state ip vs w) = .ok v (S.state ip vs w) := by
  apply Exec.getLocal_apply (f := ⟨S.id, ip, S.machine.stack.size⟩) rfl
  show (S.machine.stack ++ (Value.function S.id :: vs).toArray)[S.machine.stack.size + (n + 1)]? = _
  rw [Array.getElem?_append_right (Nat.le_add_right _ _), Nat.add_sub_cancel_left]
  simpa using hv

theorem setLocal_state {n : Nat} (hn : n < vs.length) :
    Exec.setLocal (n + 1) v (S.state ip vs w) = .ok () (S.state ip (vs.set n v) w) := by
  have hlt : S.machine.stack.size + (n + 1) < (S.state ip vs w).stack.size := by
    simp [state, hn]
  have hset : (S.state ip vs w).stack.setIfInBounds (S.machine.stack.size + (n + 1)) v =
      (S.state ip (vs.set n v) w).stack := by
    show (S.machine.stack ++ (Value.function S.id :: vs).toArray).setIfInBounds _ v = _
    rw [Array.setIfInBounds_append_right (Nat.le_add_right _ _), Nat.add_sub_cancel_left]
    simp [state]
  rw [Exec.setLocal_apply (f := ⟨S.id, ip, S.machine.stack.size⟩) rfl hlt, hset]
  rfl

/-- The state behind an operation that gives a value or fails. -/
def answered (S : Site) (ip : Nat) (vs : List Value) (w : World) :
    Except Fault Value -> EStateM.Result Raised Machine Unit
  | .ok v => .ok () (S.state ip (vs ++ [v]) w)
  | .error fault => .error (.fault fault) (S.state ip vs w)

section Perform

variable {x : Heap -> Except Fault Value}

theorem perform_state_ok (hx : x S.heap = .ok v) :
    Exec.perform (fun h => answer h (x h)) (S.state ip vs w) = .ok v (S.state ip vs w) := by
  have hfound : x (S.state ip vs w).heap = .ok v := hx
  rw [Exec.perform_answer, hfound]

theorem perform_state_error {fault : Fault} (hx : x S.heap = .error fault) :
    Exec.perform (fun h => answer h (x h)) (S.state ip vs w) =
      .error (.fault fault) (S.state ip vs w) := by
  have hfound : x (S.state ip vs w).heap = .error fault := hx
  rw [Exec.perform_answer, hfound]

theorem perform_state (x : Heap -> Except Fault Value) :
    (Exec.perform (fun h => answer h (x h)) >>= Exec.push) (S.state ip vs w) =
      S.answered ip vs w (x S.heap) := by
  cases hx : x S.heap with
  | ok v =>
      rw [Exec.bind_ok (perform_state_ok hx)]
      exact push_state
  | error fault => exact Exec.bind_error (perform_state_error hx)

end Perform

/-! ## Instructions -/

theorem step_literal {x : Literal} :
    Exec.step (.literal x) (S.state ip vs w) = .ok () (S.state ip (vs ++ [x.value]) w) :=
  push_state

theorem step_constant {k : Nat} (hk : S.function.code.constants[k]? = some v) :
    Exec.step (.constant k) (S.state ip vs w) = .ok () (S.state ip (vs ++ [v]) w) := by
  rw [Exec.step, Exec.bind_ok (constant_state hk)]
  exact push_state

theorem step_pop : Exec.step .pop (S.state ip (vs ++ [v]) w) = .ok () (S.state ip vs w) := by
  rw [Exec.step, Exec.bind_ok pop_state]
  rfl

theorem step_unary {op : UnarySign} {a : Value} :
    Exec.step (.unary op.op) (S.state ip (vs ++ [a]) w) =
      S.answered ip vs w (op.apply S.heap a) := by
  rw [Exec.step, Exec.bind_ok pop_state]
  cases op with
  | negate => exact perform_state fun h => a.negate
  | bitNot => exact perform_state fun h => a.bitNot
  | not => exact perform_state fun h => .ok (.bool (h.falsy a))

theorem step_arith {op : Operator} {a b : Value} :
    Exec.step (.binary (.arith op)) (S.state ip (vs ++ [a] ++ [b]) w) =
      S.answered ip vs w (op.apply S.heap a b) := by
  rw [Exec.step, Exec.bind_ok pop_state, Exec.bind_ok pop_state]
  exact perform_state fun h => op.apply h a b

theorem step_binary {op : BinarySign} {a b : Value} :
    Exec.step (.binary op.op) (S.state ip (vs ++ [a] ++ [b]) w) =
      S.answered ip vs w (op.apply S.heap a b) := by
  cases op with
  | arith op => exact step_arith
  | compare c =>
      rw [Exec.step, Exec.bind_ok pop_state, Exec.bind_ok pop_state]
      exact perform_state fun h => c.apply a b

theorem step_get {a b : Value} :
    Exec.step (.binary .get) (S.state ip (vs ++ [a] ++ [b]) w) =
      S.answered ip vs w (S.heap.get a b) := by
  rw [Exec.step, Exec.bind_ok pop_state, Exec.bind_ok pop_state]
  exact perform_state fun h => h.get a b

theorem step_getProperty {k : Nat} {key : String} {a : Value}
    (hk : S.function.code.constants[k]? = some (.text key)) :
    Exec.step (.getProperty k) (S.state ip (vs ++ [a]) w) =
      S.answered ip vs w (S.heap.getProperty a key) := by
  rw [Exec.step, Exec.bind_ok (name_state hk), Exec.bind_ok pop_state]
  exact perform_state fun h => h.getProperty a key

theorem step_getLocal {n : Nat} (hv : vs[n]? = some v) :
    Exec.step (.getLocal (n + 1)) (S.state ip vs w) = .ok () (S.state ip (vs ++ [v]) w) := by
  rw [Exec.step, Exec.bind_ok (getLocal_state hv)]
  exact push_state

theorem step_setLocal {n : Nat} (hn : n < vs.length) :
    Exec.step (.setLocal (n + 1)) (S.state ip (vs ++ [v]) w) =
      .ok () (S.state ip (vs.set n v ++ [v]) w) := by
  rw [Exec.step, Exec.bind_ok peek_state, setLocal_state (by simp; lia)]
  rw [List.set_append_left _ _ hn]

theorem step_increment {n : Nat} {i : Int64} (hv : vs[n]? = some v) :
    Exec.step (.increment (n + 1) i) (S.state ip vs w) =
      match v.add S.heap (.integer i) with
      | .ok new => .ok () (S.state ip (vs.set n new ++ [new]) w)
      | .error fault => .error (.fault fault) (S.state ip vs w) := by
  have hn : n < vs.length := (List.getElem?_eq_some_iff.mp hv).1
  rw [Exec.step, Exec.incrementLocal]
  cases hx : v.add S.heap (.integer i) with
  | ok new =>
      have hincrement : Exec.incrementLocal (n + 1) i (S.state ip vs w) =
          .ok new (S.state ip (vs.set n new) w) := by
        rw [Exec.incrementLocal, Exec.bind_ok (getLocal_state hv),
          Exec.bind_ok (perform_state_ok (x := fun h => v.add h (.integer i)) hx)]
        exact Exec.bind_ok (setLocal_state hn)
      exact (Exec.bind_ok hincrement).trans push_state
  | error fault =>
      apply Exec.bind_error
      rw [Exec.bind_ok (getLocal_state hv)]
      exact Exec.bind_error (perform_state_error (x := fun h => v.add h (.integer i)) hx)

theorem step_defineGlobal {k : Nat} {x : String}
    (hk : S.function.code.constants[k]? = some (.text x)) :
    Exec.step (.defineGlobal k) (S.state ip (vs ++ [v]) w) =
      .ok () (S.state ip vs { w with globals := w.globals.insert x v }) := by
  rw [Exec.step, Exec.bind_ok (name_state hk), Exec.bind_ok pop_state]
  rfl

theorem step_getGlobal {k : Nat} {x : String}
    (hk : S.function.code.constants[k]? = some (.text x)) :
    Exec.step (.getGlobal k) (S.state ip vs w) =
      S.answered ip vs w (match w.globals[x]? with
        | some v => .ok v
        | none => .error (.undefinedVariable x)) := by
  have hglobals : (S.state ip vs w).globals = w.globals := rfl
  rw [Exec.step, Exec.bind_ok (name_state hk)]
  cases hx : w.globals[x]? with
  | some v =>
      have hget : Exec.getGlobal x (S.state ip vs w) = .ok v (S.state ip vs w) := by
        rw [Exec.getGlobal, Exec.bind_ok Exec.get_apply, hglobals, hx]
        rfl
      rw [Exec.bind_ok hget]
      exact push_state
  | none =>
      have hget : Exec.getGlobal x (S.state ip vs w) =
          .error (.fault (.undefinedVariable x)) (S.state ip vs w) := by
        rw [Exec.getGlobal, Exec.bind_ok Exec.get_apply, hglobals, hx]
        rfl
      rw [Exec.bind_error hget]
      rfl

theorem step_setGlobal {k : Nat} {x : String}
    (hk : S.function.code.constants[k]? = some (.text x)) :
    Exec.step (.setGlobal k) (S.state ip (vs ++ [v]) w) =
      if w.globals.contains x then
        .ok () (S.state ip (vs ++ [v]) { w with globals := w.globals.insert x v })
      else
        .error (.fault (.undefinedVariable x)) (S.state ip (vs ++ [v]) w) := by
  have hglobals : (S.state ip (vs ++ [v]) w).globals = w.globals := rfl
  rw [Exec.step, Exec.bind_ok (name_state hk), Exec.bind_ok peek_state, Exec.setGlobal,
    Exec.bind_ok Exec.get_apply, hglobals]
  split <;> rfl

theorem step_jump {offset : Nat} :
    Exec.step (.jump offset) (S.state ip vs w) = .ok () (S.state (ip + offset) vs w) :=
  Exec.jumpForward_apply (f := ⟨S.id, ip, S.machine.stack.size⟩) rfl

theorem step_loop {offset : Nat} (h : offset <= ip) :
    Exec.step (.loop offset) (S.state ip vs w) = .ok () (S.state (ip - offset) vs w) :=
  Exec.jumpBack_apply (f := ⟨S.id, ip, S.machine.stack.size⟩) rfl h

theorem goes_jump {offset stop : Nat} (hi : S.function.code.instrs[ip]? = some (.jump offset))
    (hstop : stop = ip + 1 + offset) : (S.state ip vs w).Goes 0 (S.state stop vs w) := by
  subst hstop
  exact (goes_of_ok hi step_jump).lower (Nat.zero_le 1)

theorem goes_loop {offset stop : Nat} (hi : S.function.code.instrs[ip]? = some (.loop offset))
    (hstop : stop + offset = ip + 1) : (S.state ip vs w).Goes 0 (S.state stop vs w) := by
  have hle : offset <= ip + 1 := by lia
  have hgoes : (S.state ip vs w).Goes 1 _ := goes_of_ok hi (step_loop hle)
  rw [← hstop, Nat.add_sub_cancel] at hgoes
  exact hgoes.lower (Nat.zero_le 1)

theorem topIsFalsy_state :
    Exec.topIsFalsy (S.state ip (vs ++ [v]) w) =
      .ok (S.heap.falsy v) (S.state ip (vs ++ [v]) w) := by
  rw [Exec.topIsFalsy, Exec.bind_ok peek_state]
  rfl

theorem step_jumpIfFalse {offset : Nat} :
    Exec.step (.jumpIfFalse offset) (S.state ip (vs ++ [v]) w) =
      .ok () (S.state (if S.heap.falsy v then ip + offset else ip) (vs ++ [v]) w) := by
  rw [Exec.step, Exec.bind_ok topIsFalsy_state]
  cases S.heap.falsy v with
  | true => exact step_jump
  | false => rfl

theorem step_connective {op : Connective} {offset : Nat} :
    Exec.step (op.jump offset) (S.state ip (vs ++ [v]) w) =
      .ok () (S.state (if op.settledBy (S.heap.falsy v) then ip + offset else ip)
        (vs ++ [v]) w) := by
  cases op with
  | and => exact step_jumpIfFalse
  | or =>
      show Exec.step (.jumpIfTrue offset) _ = _
      rw [Exec.step, Exec.bind_ok topIsFalsy_state]
      cases S.heap.falsy v with
      | true => rfl
      | false => exact step_jump

theorem step_echo :
    Exec.step .echo (S.state ip (vs ++ [v]) w) =
      .ok () (S.state ip vs (w.print (S.heap.render v ++ "\n"))) := by
  rw [Exec.step, Exec.bind_ok pop_state]
  rfl

theorem step_throw :
    Exec.step .throw (S.state ip (vs ++ [v]) w) = .error (.value v) (S.state ip vs w) := by
  rw [Exec.step, Exec.bind_ok pop_state]
  rfl

/-- Returning from the script leaves the machine as it was below the call. -/
theorem step_ret :
    Exec.step .ret (S.state ip (vs ++ [v]) w) =
      .ok () { S.machine with globals := w.globals, output := w.output, frames := [] } := by
  rw [Exec.step, Exec.leave_last stack_concat rfl]
  have htake : (S.state ip vs w).stack.take S.machine.stack.size = S.machine.stack := by
    simp [state]
  rw [htake]
  rfl

/-! ## Unwinding -/

/-- A handler finds the values below the body of its `try` and the thrown value above them. -/
theorem unwind_caught {us : List Value} {stop : Nat}
    (h : S.handler? ip = some (stop, vs.length + 1)) (hvs : vs <+: us) :
    (S.state (ip + 1) us w).unwind v = (.running, S.state stop (vs ++ [v]) w) := by
  rcases Option.map_eq_some_iff.mp h with ⟨r, hr, hrange⟩
  rcases Prod.mk.inj hrange with ⟨hstop, hdepth⟩
  have hhandler : Machine.handler? (S.state (ip + 1) us w).heap (S.state (ip + 1) us w).frames =
      some (⟨S.id, ip + 1, S.machine.stack.size⟩, r, []) := by
    have hfound : (S.heap.function S.id).findRange? (ip + 1 - 1) = some r := hr
    exact Machine.handler?_of_some hfound
  have hstack : ((S.state (ip + 1) us w).stack.take (S.machine.stack.size + r.depth)).push v =
      (S.state stop (vs ++ [v]) w).stack := by
    rcases hvs with ⟨ts, rfl⟩
    rw [hdepth, stack_concat]
    simp [state]
  rw [Machine.unwind, hhandler]
  show (Status.running, Machine.catchIn _ v _ r []) = _
  rw [Machine.catchIn, hstack, hstop]
  rfl

theorem unwind_uncaught {us : List Value} (h : S.handler? ip = none) :
    (S.state (ip + 1) us w).unwind v =
      (.failed ((S.state (ip + 1) us w).report v), (S.state (ip + 1) us w).reset) := by
  have hhandler :
      Machine.handler? (S.state (ip + 1) us w).heap (S.state (ip + 1) us w).frames = none := by
    have hfound : (S.heap.function S.id).findRange? (ip + 1 - 1) = none :=
      Option.map_eq_none_iff.mp h
    exact Machine.handler?_of_none hfound
  rw [Machine.unwind, hhandler]

end Site
end StackScript
