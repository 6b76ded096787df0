import StackScript.Proofs.Machine.Reachable
import StackScript.Proofs.Structured.Semantics

/-!
# Expressions and their values

The value of an expression that calls nothing and assigns to no variable follows from the
values of its operands, taken from left to right; the first one that fails ends the
evaluation.  On the way only the heap changes.

The code of such an expression does the same wherever it stands: in any function, at any
depth of calls, and with any values of unfinished expressions on the stack.
-/

namespace StackScript

/-! ## Values of expressions -/

mutual

/-- The expression calls nothing and assigns to no variable. -/
def Expr.Steady : Expr -> Prop
  | .literal _ _ | .text _ _ | .function _ _ | .read _ _ => True
  | .assign _ _ _ | .update _ _ _ _ _ | .call _ _ _ => False
  | .unary _ a _ => a.Steady
  | .binary _ a b _ => a.Steady ∧ b.Steady
  | .ternary _ a b c _ => a.Steady ∧ b.Steady ∧ c.Steady
  | .connect _ a _ b => a.Steady ∧ b.Steady
  | .property o _ _ => o.Steady
  | .setProperty o _ a _ => o.Steady ∧ a.Steady
  | .updateProperty o _ _ _ a _ => o.Steady ∧ a.Steady
  | .updateItem o i _ _ a _ => o.Steady ∧ i.Steady ∧ a.Steady
  | .array items _ | .table items _ => Expr.AllSteady items

def Expr.AllSteady : List Expr -> Prop
  | [] => True
  | e :: rest => e.Steady ∧ Expr.AllSteady rest

end

/-- What evaluating something does to the heap, and the value or the fault that it ends with. -/
abbrev Evaluation :=
  EStateM Fault Heap

def Evaluation.perform (operation : Heap -> Answer) : Evaluation Value :=
  operation

structure Variables where
  slot : Nat -> Value
  global? : String -> Option Value

def Variables.read (w : Variables) : Variable -> Evaluation Value
  | .slot n => pure (w.slot n)
  | .global x =>
    match w.global? x with
    | some v => pure v
    | none => throw (.undefinedVariable x)

open Evaluation in
mutual

/-- The value of an expression.  A connective that its left operand settles has the value of that
operand, and its right operand is not evaluated. -/
def Expr.eval (w : Variables) : (e : Expr) -> e.Steady -> Evaluation Value
  | .literal v _, _ => pure v.value
  | .text s _, _ => pure (.text s)
  | .function id _, _ => pure (.function id)
  | .read v _, _ => w.read v
  | .assign _ _ _, he => he.elim
  | .update _ _ _ _ _, he => he.elim
  | .unary op a _, he => do
    let x ← a.eval w he
    perform fun h => op.apply h x
  | .binary op a b _, he => do
    let x ← a.eval w he.1
    let y ← b.eval w he.2
    perform fun h => op.apply h x y
  | .ternary op a b c _, he => do
    let x ← a.eval w he.1
    let y ← b.eval w he.2.1
    let z ← c.eval w he.2.2
    perform fun h => op.apply h x y z
  | .connect op a _ b, he => do
    let x ← a.eval w he.1
    if op.settledBy ((← get).falsy x) then
      return x
    else
      b.eval w he.2
  | .call _ _ _, he => he.elim
  | .property o key _, he => do
    let x ← o.eval w he
    perform fun h => answer h (h.getProperty x key)
  | .setProperty o key a _, he => do
    let x ← o.eval w he.1
    let y ← a.eval w he.2
    perform fun h => h.setProperty x key y
  | .updateProperty o key op _ a _, he => do
    let x ← o.eval w he.1
    let old ← perform fun h => answer h (h.getProperty x key)
    let y ← a.eval w he.2
    let new ← perform fun h => answer h (op.apply h old y)
    perform fun h => h.setProperty x key new
  | .updateItem o i op _ a _, he => do
    let x ← o.eval w he.1
    let y ← i.eval w he.2.1
    let old ← perform fun h => answer h (h.get x y)
    let z ← a.eval w he.2.2
    let new ← perform fun h => answer h (op.apply h old z)
    perform fun h => h.set x y new
  | .array items _, he => do
    let xs ← Expr.evalAll w items he
    perform fun h => .of (h.newArray xs.toArray)
  | .table items _, he => do
    let xs ← Expr.evalAll w items he
    perform fun h => h.tableOf xs

def Expr.evalAll (w : Variables) : (es : List Expr) -> Expr.AllSteady es ->
    Evaluation (List Value)
  | [], _ => pure []
  | e :: rest, he => do
    let x ← e.eval w he.1
    let xs ← Expr.evalAll w rest he.2
    return x :: xs

end

theorem Evaluation.of_bind_ok {α β : Type} {x : Evaluation α} {f : α -> Evaluation β}
    {h h' : Heap} {b : β} (hbind : (x >>= f) h = .ok b h') :
    exists a h1, x h = .ok a h1 ∧ f a h1 = .ok b h' := by
  change EStateM.bind x f h = _ at hbind
  unfold EStateM.bind at hbind
  split at hbind
  · rename_i a h1 hx
    exact ⟨a, h1, hx, hbind⟩
  · cases hbind

theorem Expr.length_of_evalAll {w : Variables} {es : List Expr} {he : Expr.AllSteady es}
    {h h' : Heap} {xs : List Value} (heval : Expr.evalAll w es he h = .ok xs h') :
    xs.length = es.length := by
  induction es generalizing h xs with
  | nil =>
      cases heval
      rfl
  | cons e es ih =>
      rcases Evaluation.of_bind_ok heval with ⟨x, h1, -, htail⟩
      rcases Evaluation.of_bind_ok htail with ⟨ys, h2, hys, hpure⟩
      cases hpure
      rw [List.length_cons, List.length_cons, ih hys]

def Machine.visible (m : Machine) (f : Frame) : Variables where
  slot n := m.stack.getD (f.base + n) .none
  global? x := m.globals[x]?

/-! ## Places -/

/-- Where an expression is evaluated: a machine, its innermost call with the calls around it, and
the index behind the code that is looked at. -/
structure Place where
  machine : Machine
  frame : Frame
  outer : List Frame
  stop : Nat

namespace Place

def visible (P : Place) : Variables :=
  P.machine.visible P.frame

/-- The machine in front of an instruction of the innermost call, with operands above its stack. -/
def state (P : Place) (ip : Nat) (operands : List Value) (h : Heap) : Machine :=
  { P.machine with
    heap := h
    stack := P.machine.stack ++ operands.toArray
    frames := { P.frame with ip := ip } :: P.outer }

def function (P : Place) : Function :=
  P.machine.heap.function P.frame.function

def Has (P : Place) (h : Heap) : Prop :=
  h.functions = P.machine.heap.functions

/-- An instruction of the code that is looked at. -/
structure Holds (P : Place) (ip : Nat) (i : Instr) : Prop where
  instr : P.function.code.instrs[ip]? = some i
  start : P.frame.ip <= ip
  stop : ip < P.stop

/-- The code that is looked at has the given lines from an index on. -/
abbrev Lies (P : Place) : Nat -> Lines -> Prop :=
  Along fun ip x => P.Holds ip x.1

/-- The next instruction fails.  It belongs to the code that is looked at, and it leaves the stack
of the machine alone. -/
def Raises (P : Place) (fault : Fault) (h : Heap) (m : Machine) : Prop :=
  exists ip operands, P.frame.ip <= ip ∧ ip < P.stop ∧ m.raised? = some (.fault fault) ∧
    m.tick = (P.state (ip + 1) operands h).unwind fault.value

/-- The machine comes to the state of a result, or to an instruction that fails. -/
def Gives (P : Place) {α : Type} (m : Machine) (x : EStateM.Result Fault Heap α)
    (post : α -> Heap -> Machine) : Prop :=
  match x with
  | .ok a h => P.Has h ∧ m.Goes 0 (post a h)
  | .error fault h => exists m', m.Goes 0 m' ∧ P.Raises fault h m'

section Rules

variable {P : Place} {α β : Type} {m m' : Machine} {ip : Nat} {h h' : Heap} {i : Instr}
variable {ts us : List Value} {v : Value}

theorem Has.function (hh : P.Has h) : h.function P.frame.function = P.function := by
  unfold Place.Has at hh
  unfold Place.function Heap.function
  rw [hh]

theorem stack_concat :
    (P.state ip (ts ++ [v]) h).stack = (P.state ip ts h).stack.push v := by
  simp [state]

theorem pop_state : Exec.pop (P.state ip (ts ++ [v]) h) = .ok v (P.state ip ts h) :=
  Exec.pop_apply stack_concat

theorem push_state : Exec.push v (P.state ip ts h) = .ok () (P.state ip (ts ++ [v]) h) := by
  rw [Exec.push_apply, ← stack_concat]
  rfl

theorem peek_state : Exec.peek 0 (P.state ip (ts ++ [v]) h) = .ok v (P.state ip (ts ++ [v]) h) :=
  Exec.peek_zero_apply stack_concat

theorem popMany_state {n : Nat} (hn : us.length = n) :
    Exec.popMany n (P.state ip (ts ++ us) h) = .ok us.toArray (P.state ip ts h) := by
  have hstack : (P.state ip (ts ++ us) h).stack = (P.state ip ts h).stack ++ us.toArray := by
    simp [state]
  have hplace : (P.state ip (ts ++ us) h).stack.size - n = (P.state ip ts h).stack.size := by
    simp [hstack, hn]
  have hcut (s t : Array Value) : (s ++ t).drop s.size = t ∧ (s ++ t).take s.size = s := by
    simp
  rw [Exec.popMany_apply (by simp [hstack, hn]), hplace, hstack, (hcut _ _).1, (hcut _ _).2]
  rfl

theorem constant_state {k : Nat} (hh : P.Has h) (hk : P.function.code.constants[k]? = some v) :
    Exec.constant k (P.state ip ts h) = .ok v (P.state ip ts h) := by
  rw [← hh.function] at hk
  exact Exec.constant_apply rfl hk

theorem name_state {k : Nat} {x : String} (hh : P.Has h)
    (hk : P.function.code.constants[k]? = some (.text x)) :
    Exec.name k (P.state ip ts h) = .ok x (P.state ip ts h) := by
  rw [← hh.function] at hk
  exact Exec.name_apply rfl hk

/-- Behind a completed instruction. -/
theorem goes_of_step (hh : P.Has h) (hi : P.Holds ip i)
    (hstep : Exec.step i (P.state (ip + 1) ts h) = .ok () m) :
    (P.state ip ts h).Goes 0 m := by
  have hinstr := hi.instr
  rw [← hh.function] at hinstr
  have htick : (P.state ip ts h).tick = (.running, m) := Machine.tick_of_ok rfl hinstr hstep
  exact (Machine.Goes.tick htick).lower (Nat.zero_le 1)

theorem raises_of_step {fault : Fault} (hh : P.Has h) (hi : P.Holds ip i)
    (hstep : Exec.step i (P.state (ip + 1) us h) = .error (.fault fault) (P.state (ip + 1) ts h')) :
    P.Raises fault h' (P.state ip us h) := by
  have hinstr := hi.instr
  rw [← hh.function] at hinstr
  have hraised : (P.state ip us h).raised? = _ := Machine.raised?_of_error rfl hinstr hstep
  have htick : (P.state ip us h).tick = _ := Machine.tick_of_error rfl hinstr hstep
  exact ⟨ip, ts, hi.start, hi.stop, hraised, htick⟩

namespace Gives

theorem pure {post : α -> Heap -> Machine} {a : α} (hh : P.Has h) (hgoes : m.Goes 0 (post a h)) :
    P.Gives m ((Pure.pure a : Evaluation α) h) post :=
  ⟨hh, hgoes⟩

theorem goes {x : EStateM.Result Fault Heap α} {post : α -> Heap -> Machine}
    (hgoes : m.Goes 0 m') (hx : P.Gives m' x post) : P.Gives m x post := by
  cases x with
  | ok a h => exact ⟨hx.1, hgoes.trans hx.2⟩
  | error fault h =>
      rcases hx with ⟨m'', hgoes', hraises⟩
      exact ⟨m'', hgoes.trans hgoes', hraises⟩

theorem bind {x : Evaluation α} {f : α -> Evaluation β} {post : α -> Heap -> Machine}
    {post' : β -> Heap -> Machine} (hx : P.Gives m (x h) post)
    (hf : forall a h', x h = .ok a h' -> P.Has h' -> P.Gives (post a h') (f a h') post') :
    P.Gives m ((x >>= f) h) post' := by
  show P.Gives m (EStateM.bind x f h) post'
  unfold EStateM.bind
  cases hresult : x h with
  | ok a h' =>
      rw [hresult] at hx
      exact goes hx.2 (hf a h' hresult hx.1)
  | error fault h' =>
      rw [hresult] at hx
      exact hx

end Gives

theorem step_connective {op : Connective} {offset : Nat} :
    Exec.step (op.jump offset) (P.state ip (ts ++ [v]) h) =
      .ok () (P.state (if op.settledBy (h.falsy v) then ip + offset else ip) (ts ++ [v]) h) := by
  have hjump : Exec.jumpForward offset (P.state ip (ts ++ [v]) h) = _ :=
    Exec.jumpForward_apply rfl
  have hfalsy : Exec.topIsFalsy (P.state ip (ts ++ [v]) h) = .ok (h.falsy v) _ :=
    Exec.bind_ok peek_state
  cases op with
  | and =>
      show Exec.step (.jumpIfFalse offset) _ = _
      rw [Exec.step, Exec.bind_ok hfalsy]
      cases h.falsy v with
      | true => exact hjump
      | false => rfl
  | or =>
      show Exec.step (.jumpIfTrue offset) _ = _
      rw [Exec.step, Exec.bind_ok hfalsy]
      cases h.falsy v with
      | true => rfl
      | false => exact hjump

/-- An instruction that takes its operands and performs an operation on the heap. -/
theorem gives_perform {operation : Heap -> Answer} {stop : Nat} (hh : P.Has h)
    (hi : P.Holds ip i) (hstop : stop = ip + 1) (hl : h.Leaves (operation h))
    (hstep : Exec.step i (P.state (ip + 1) us h) =
      (Exec.perform operation >>= Exec.push) (P.state (ip + 1) ts h)) :
    P.Gives (P.state ip us h) (Evaluation.perform operation h) fun v h' =>
      P.state stop (ts ++ [v]) h' := by
  subst hstop
  unfold Evaluation.perform
  cases hanswer : operation h with
  | ok v h' =>
      rw [hanswer] at hl
      have hperform : Exec.perform operation (P.state (ip + 1) ts h) =
          .ok v (P.state (ip + 1) ts h') :=
        Exec.perform_ok hanswer
      rw [Exec.bind_ok hperform, push_state] at hstep
      exact ⟨Eq.trans hl hh, goes_of_step hh hi hstep⟩
  | error fault h' =>
      have hperform : Exec.perform operation (P.state (ip + 1) ts h) =
          .error (.fault fault) (P.state (ip + 1) ts h') :=
        Exec.perform_error hanswer
      rw [Exec.bind_error hperform] at hstep
      exact ⟨_, .refl _, raises_of_step hh hi hstep⟩

/-! ## Instructions -/

section Operations

variable {k stop : Nat} {key : String} {x y z : Value}

theorem gives_unary {op : UnaryOp} (hh : P.Has h) (hi : P.Holds ip (.unary op))
    (hstop : stop = ip + 1) :
    P.Gives (P.state ip (ts ++ [x]) h) (Evaluation.perform (fun h => op.apply h x) h) fun v h' =>
      P.state stop (ts ++ [v]) h' := by
  refine gives_perform hh hi hstop op.acts.leaves ?_
  rw [Exec.step, Exec.bind_ok pop_state]

theorem gives_binary {op : BinaryOp} (hh : P.Has h) (hi : P.Holds ip (.binary op))
    (hstop : stop = ip + 1) :
    P.Gives (P.state ip (ts ++ [x] ++ [y]) h) (Evaluation.perform (fun h => op.apply h x y) h)
      fun v h' => P.state stop (ts ++ [v]) h' := by
  refine gives_perform hh hi hstop op.acts.leaves ?_
  rw [Exec.step, Exec.bind_ok pop_state, Exec.bind_ok pop_state]

theorem gives_ternary {op : TernaryOp} (hh : P.Has h) (hi : P.Holds ip (.ternary op))
    (hstop : stop = ip + 1) :
    P.Gives (P.state ip (ts ++ [x] ++ [y] ++ [z]) h)
      (Evaluation.perform (fun h => op.apply h x y z) h) fun v h' =>
        P.state stop (ts ++ [v]) h' := by
  refine gives_perform hh hi hstop op.acts.leaves ?_
  rw [Exec.step, Exec.bind_ok pop_state, Exec.bind_ok pop_state, Exec.bind_ok pop_state]

theorem gives_getProperty (hh : P.Has h) (hi : P.Holds ip (.getProperty k))
    (hk : P.function.code.constants[k]? = some (.text key)) (hstop : stop = ip + 1) :
    P.Gives (P.state ip (ts ++ [x]) h)
      (Evaluation.perform (fun h => answer h (h.getProperty x key)) h) fun v h' =>
        P.state stop (ts ++ [v]) h' := by
  refine gives_perform hh hi hstop Heap.leaves_answer ?_
  rw [Exec.step, Exec.bind_ok (name_state hh hk), Exec.bind_ok pop_state]

theorem gives_setProperty (hh : P.Has h) (hi : P.Holds ip (.setProperty k))
    (hk : P.function.code.constants[k]? = some (.text key)) (hstop : stop = ip + 1) :
    P.Gives (P.state ip (ts ++ [x] ++ [y]) h)
      (Evaluation.perform (fun h => h.setProperty x key y) h) fun v h' =>
        P.state stop (ts ++ [v]) h' := by
  refine gives_perform hh hi hstop Heap.leaves_setProperty ?_
  rw [Exec.step, Exec.bind_ok (name_state hh hk), Exec.bind_ok pop_state, Exec.bind_ok pop_state]

theorem gives_newArray {n : Nat} (hh : P.Has h) (hi : P.Holds ip (.newArray n))
    (hn : us.length = n) (hstop : stop = ip + 1) :
    P.Gives (P.state ip (ts ++ us) h)
      (Evaluation.perform (fun h => .of (h.newArray us.toArray)) h) fun v h' =>
        P.state stop (ts ++ [v]) h' := by
  refine gives_perform hh hi hstop rfl ?_
  rw [Exec.step, Exec.bind_ok (popMany_state hn)]
  rfl

theorem gives_newTable {n : Nat} (hh : P.Has h) (hi : P.Holds ip (.newTable n))
    (hn : us.length = 2 * n) (hstop : stop = ip + 1) :
    P.Gives (P.state ip (ts ++ us) h)
      (Evaluation.perform (fun h => h.tableOf us) h) fun v h' =>
        P.state stop (ts ++ [v]) h' := by
  refine gives_perform hh hi hstop Heap.acts_tableOf.leaves ?_
  rw [Exec.step, Exec.bind_ok (popMany_state hn)]

theorem goes_pop (hh : P.Has h) (hi : P.Holds ip .pop) :
    (P.state ip (ts ++ [x]) h).Goes 0 (P.state (ip + 1) ts h) := by
  refine goes_of_step hh hi ?_
  rw [Exec.step, Exec.bind_ok pop_state]
  rfl

theorem goes_duplicate (hh : P.Has h) (hi : P.Holds ip .duplicate) :
    (P.state ip (ts ++ [x]) h).Goes 0 (P.state (ip + 1) (ts ++ [x] ++ [x]) h) := by
  refine goes_of_step hh hi ?_
  rw [Exec.step, Exec.bind_ok peek_state]
  exact push_state

theorem goes_duplicatePair (hh : P.Has h) (hi : P.Holds ip .duplicatePair) :
    (P.state ip (ts ++ [x] ++ [y]) h).Goes 0
      (P.state (ip + 1) (ts ++ [x] ++ [y] ++ [x] ++ [y]) h) := by
  have hstack : (P.state (ip + 1) (ts ++ [x] ++ [y]) h).stack =
      ((P.state (ip + 1) ts h).stack.push x).push y := by
    rw [stack_concat, stack_concat]
  refine goes_of_step hh hi ?_
  rw [Exec.step, Exec.bind_ok (Exec.peek_one_apply hstack), Exec.bind_ok peek_state,
    Exec.bind_ok push_state]
  exact push_state

end Operations

theorem gives_constant {k : Nat} (hh : P.Has h) (hi : P.Holds ip (.constant k))
    (hk : P.function.code.constants[k]? = some v) :
    P.Gives (P.state ip ts h) ((pure v : Evaluation Value) h) fun v h' =>
      P.state (ip + 1) (ts ++ [v]) h' := by
  refine Gives.pure hh (goes_of_step hh hi ?_)
  rw [Exec.step, Exec.bind_ok (constant_state hh hk)]
  exact push_state

theorem gives_slot {n : Nat} (hn : P.frame.base + n < P.machine.stack.size) (hh : P.Has h)
    (hi : P.Holds ip (.getLocal n)) :
    P.Gives (P.state ip ts h) (P.visible.read (.slot n) h) fun v h' =>
      P.state (ip + 1) (ts ++ [v]) h' := by
  have hslot : (P.state (ip + 1) ts h).stack[P.frame.base + n]? = some (P.visible.slot n) := by
    simp [state, visible, Machine.visible, Array.getElem?_append_left, hn]
  have hget : Exec.getLocal n (P.state (ip + 1) ts h) = .ok (P.visible.slot n) _ :=
    Exec.getLocal_apply (f := { P.frame with ip := ip + 1 }) rfl hslot
  refine Gives.pure hh (goes_of_step hh hi ?_)
  rw [Exec.step, Exec.bind_ok hget]
  exact push_state

theorem gives_global {k : Nat} {x : String} (hh : P.Has h) (hi : P.Holds ip (.getGlobal k))
    (hk : P.function.code.constants[k]? = some (.text x)) :
    P.Gives (P.state ip ts h) (P.visible.read (.global x) h) fun v h' =>
      P.state (ip + 1) (ts ++ [v]) h' := by
  have hglobals : (P.state (ip + 1) ts h).globals[x]? = P.visible.global? x := rfl
  have hstep : Exec.step (.getGlobal k) (P.state (ip + 1) ts h) =
      (Exec.getGlobal x >>= Exec.push) (P.state (ip + 1) ts h) := by
    rw [Exec.step, Exec.bind_ok (name_state hh hk)]
  rw [Variables.read]
  cases hx : P.visible.global? x with
  | some v =>
      have hget : Exec.getGlobal x (P.state (ip + 1) ts h) = .ok v (P.state (ip + 1) ts h) := by
        rw [Exec.getGlobal, Exec.bind_ok Exec.get_apply, hglobals, hx]
        rfl
      rw [Exec.bind_ok hget, push_state] at hstep
      exact Gives.pure hh (goes_of_step hh hi hstep)
  | none =>
      have hget : Exec.getGlobal x (P.state (ip + 1) ts h) =
          .error (.fault (.undefinedVariable x)) (P.state (ip + 1) ts h) := by
        rw [Exec.getGlobal, Exec.bind_ok Exec.get_apply, hglobals, hx]
        rfl
      rw [Exec.bind_error hget] at hstep
      exact ⟨_, .refl _, raises_of_step hh hi hstep⟩

end Rules

end Place

/-! ## The code of an expression -/

section Code

variable {P : Place} {k : Variable.Index} {known : Nat -> Prop}

open Place

mutual

/-- The code of an expression puts its value on top of the stack, or it fails as the evaluation
does. -/
theorem Expr.gives (e : Expr) (he : e.Steady)
    (hw : e.Within known (P.machine.stack.size - P.frame.base)) {ip stop : Nat} {ts : List Value}
    {h : Heap} (hh : P.Has h) (hlies : P.Lies ip (e.code k))
    (hk : Indexed P.function k e.constants) (hstop : stop = ip + e.size) :
    P.Gives (P.state ip ts h) (e.eval P.visible he h) fun v h' =>
      P.state stop (ts ++ [v]) h' := by
  cases e with
  | literal v line =>
      rw [Expr.eval, hstop]
      exact Gives.pure hh (goes_of_step hh hlies.1 push_state)
  | text s line =>
      rw [Expr.eval, hstop]
      exact gives_constant hh hlies.1 (hk _ (List.mem_singleton_self _))
  | function id line =>
      rw [Expr.eval, hstop]
      exact gives_constant hh hlies.1 (hk _ (List.mem_singleton_self _))
  | read v line =>
      rw [Expr.eval, hstop]
      cases v with
      | slot n =>
          have hn : n < P.machine.stack.size - P.frame.base := hw
          exact gives_slot (by lia) hh hlies.1
      | global x => exact gives_global hh hlies.1 (hk _ (List.mem_singleton_self _))
  | assign | update | call => exact he.elim
  | unary op a line =>
      simp only [Expr.code, Expr.size, along_append, along_cons, Expr.length_code] at hlies hstop
      rw [Expr.eval]
      refine Gives.bind (Expr.gives a he hw hh hlies.1 hk rfl) fun x h1 _ hh1 => ?_
      exact gives_unary hh1 hlies.2.1 hstop
  | binary op a b line =>
      simp only [Expr.code, Expr.size, Expr.constants, along_append, along_cons, indexed_append,
        List.length_append, Expr.length_code, ← Nat.add_assoc] at hlies hk hstop
      rw [Expr.eval]
      refine Gives.bind (Expr.gives a he.1 hw.1 hh hlies.1.1 hk.1 rfl) fun x h1 _ hh1 => ?_
      refine Gives.bind (Expr.gives b he.2 hw.2 hh1 hlies.1.2 hk.2 rfl) fun y h2 _ hh2 => ?_
      exact gives_binary hh2 hlies.2.1 hstop
  | ternary op a b c line =>
      simp only [Expr.code, Expr.size, Expr.constants, along_append, along_cons, indexed_append,
        List.length_append, Expr.length_code, ← Nat.add_assoc] at hlies hk hstop
      rw [Expr.eval]
      refine Gives.bind (Expr.gives a he.1 hw.1 hh hlies.1.1.1 hk.1.1 rfl) fun x h1 _ hh1 => ?_
      refine Gives.bind (Expr.gives b he.2.1 hw.2.1 hh1 hlies.1.1.2 hk.1.2 rfl)
        fun y h2 _ hh2 => ?_
      refine Gives.bind (Expr.gives c he.2.2 hw.2.2 hh2 hlies.1.2 hk.2 rfl)
        fun z h3 _ hh3 => ?_
      exact gives_ternary hh3 hlies.2.1 hstop
  | connect op a opLine b =>
      simp only [Expr.code, Expr.size, Expr.constants, along_append, along_cons, indexed_append,
        Expr.length_code] at hlies hk hstop
      rw [Expr.eval]
      refine Gives.bind (Expr.gives a he.1 hw.1 hh hlies.1 hk.1 rfl) fun x h1 _ hh1 => ?_
      have hjump : (P.state (ip + a.size) (ts ++ [x]) h1).Goes 0 _ :=
        goes_of_step hh1 hlies.2.1 step_connective
      change P.Gives _ ((if op.settledBy (h1.falsy x) then Pure.pure x
        else b.eval P.visible he.2 : Evaluation Value) h1) _
      cases hsettled : op.settledBy (h1.falsy x) with
      | true =>
          -- The jump goes over the whole right operand.
          have hbehind : stop = ip + a.size + 1 + (b.size + 1) := by lia
          rw [hsettled, if_pos rfl] at hjump
          rw [if_pos rfl, hbehind]
          exact Gives.pure hh1 hjump
      | false =>
          rw [hsettled, if_neg Bool.false_ne_true] at hjump
          rw [if_neg Bool.false_ne_true]
          refine Gives.goes (hjump.trans (goes_pop hh1 hlies.2.2.1)) ?_
          exact Expr.gives b he.2 hw.2 hh1 hlies.2.2.2 hk.2 (by lia)
  | property o key line =>
      simp only [Expr.code, Expr.size, Expr.constants, along_append, along_cons, indexed_append,
        indexed_cons, Expr.length_code] at hlies hk hstop
      rw [Expr.eval]
      refine Gives.bind (Expr.gives o he hw hh hlies.1 hk.1 rfl) fun x h1 _ hh1 => ?_
      exact gives_getProperty hh1 hlies.2.1 hk.2.1 hstop
  | setProperty o key a line =>
      simp only [Expr.code, Expr.size, Expr.constants, along_append, along_cons, indexed_append,
        indexed_cons, List.length_append, Expr.length_code, ← Nat.add_assoc] at hlies hk hstop
      rw [Expr.eval]
      refine Gives.bind (Expr.gives o he.1 hw.1 hh hlies.1.1 hk.1 rfl) fun x h1 _ hh1 => ?_
      refine Gives.bind (Expr.gives a he.2 hw.2 hh1 hlies.1.2 hk.2.2 rfl) fun y h2 _ hh2 => ?_
      exact gives_setProperty hh2 hlies.2.1 hk.2.1 hstop
  | updateProperty o key op opLine a line =>
      simp only [Expr.code, Expr.size, Expr.constants, along_append, along_cons, indexed_append,
        indexed_cons, List.length_append, List.length_cons, Expr.length_code,
        ← Nat.add_assoc] at hlies hk hstop
      have hbehind : ip + o.size + a.size + 1 + 1 = ip + o.size + 1 + 1 + a.size := by lia
      rw [Expr.eval]
      refine Gives.bind (Expr.gives o he.1 hw.1 hh hlies.1.1 hk.1 rfl) fun x h1 _ hh1 => ?_
      refine Gives.goes (goes_duplicate hh1 hlies.1.2.1) ?_
      refine Gives.bind (gives_getProperty hh1 hlies.1.2.2.1 hk.2.1 rfl) fun old h2 _ hh2 => ?_
      refine Gives.bind (Expr.gives a he.2 hw.2 hh2 hlies.1.2.2.2 hk.2.2 hbehind)
        fun y h3 _ hh3 => ?_
      refine Gives.bind (gives_binary hh3 hlies.2.1 rfl) fun new h4 _ hh4 => ?_
      exact gives_setProperty hh4 hlies.2.2.1 hk.2.1 (by lia)
  | updateItem o i op opLine a line =>
      simp only [Expr.code, Expr.size, Expr.constants, along_append, along_cons, indexed_append,
        List.length_append, List.length_cons, Expr.length_code, ← Nat.add_assoc] at hlies hk hstop
      have hbehind : ip + o.size + i.size + a.size + 1 + 1 =
          ip + o.size + i.size + 1 + 1 + a.size := by lia
      rw [Expr.eval]
      refine Gives.bind (Expr.gives o he.1 hw.1 hh hlies.1.1.1 hk.1.1 rfl) fun x h1 _ hh1 => ?_
      refine Gives.bind (Expr.gives i he.2.1 hw.2.1 hh1 hlies.1.1.2 hk.1.2 rfl)
        fun y h2 _ hh2 => ?_
      refine Gives.goes (goes_duplicatePair hh2 hlies.1.2.1) ?_
      refine Gives.bind (gives_binary hh2 hlies.1.2.2.1 rfl) fun old h3 _ hh3 => ?_
      refine Gives.bind (Expr.gives a he.2.2 hw.2.2 hh3 hlies.1.2.2.2 hk.2 hbehind)
        fun z h4 _ hh4 => ?_
      refine Gives.bind (gives_binary hh4 hlies.2.1 rfl) fun new h5 _ hh5 => ?_
      exact gives_ternary hh5 hlies.2.2.1 (by lia)
  | array items line =>
      simp only [Expr.code, Expr.size, Expr.constants, along_append, along_cons,
        Expr.length_codes] at hlies hk hstop
      rw [Expr.eval]
      refine Gives.bind (Expr.gives_all items he hw hh hlies.1 hk) fun xs h1 hxs hh1 => ?_
      exact gives_newArray hh1 hlies.2.1 (Expr.length_of_evalAll hxs) hstop
  | table items line =>
      simp only [Expr.code, Expr.size, Expr.constants, along_append, along_cons,
        Expr.length_codes] at hlies hk hstop
      rw [Expr.eval]
      refine Gives.bind (Expr.gives_all items he hw.2 hh hlies.1 hk) fun xs h1 hxs hh1 => ?_
      have heven := hw.1
      have hlength := Expr.length_of_evalAll hxs
      exact gives_newTable hh1 hlies.2.1 (by lia) hstop

theorem Expr.gives_all (es : List Expr) (he : Expr.AllSteady es)
    (hw : Expr.AllWithin known (P.machine.stack.size - P.frame.base) es) {ip : Nat}
    {ts : List Value} {h : Heap} (hh : P.Has h) (hlies : P.Lies ip (Expr.codes k es))
    (hk : Indexed P.function k (Expr.allConstants es)) :
    P.Gives (P.state ip ts h) (Expr.evalAll P.visible es he h) fun vs h' =>
      P.state (ip + Expr.sizes es) (ts ++ vs) h' := by
  cases es with
  | nil =>
      rw [Expr.evalAll]
      refine Gives.pure hh ?_
      rw [List.append_nil]
      exact .refl _
  | cons e es =>
      simp only [Expr.codes, Expr.sizes, Expr.allConstants, along_append, indexed_append,
        Expr.length_code] at hlies hk ⊢
      rw [Expr.evalAll]
      refine Gives.bind (Expr.gives e he.1 hw.1 hh hlies.1 hk.1 rfl) fun x h1 _ hh1 => ?_
      refine Gives.bind (Expr.gives_all es he.2 hw.2 hh1 hlies.2 hk.2) fun xs h2 _ hh2 => ?_
      refine Gives.pure hh2 ?_
      rw [Nat.add_assoc, List.append_assoc]
      exact .refl _

end

end Code

namespace Machine

/-- Wherever the code of an expression stands, it comes to its end with the value of the expression
on top of the old stack and the heap changed as by the evaluation; or the evaluation fails, and an
instruction of the code throws its fault with the old stack still in place.  Everything else is as
before. -/
theorem expression_runs_as_evaluated {m : Machine} {f : Frame} {rest : List Frame}
    {k : Variable.Index} {known : Nat -> Prop} {e : Expr} (he : e.Steady)
    (hf : m.frames = f :: rest) (hw : e.Within known (m.stack.size - f.base))
    (hcode : CodeAt (m.heap.function f.function) f.ip (e.code k))
    (hk : Indexed (m.heap.function f.function) k e.constants) :
    (forall v h, e.eval (m.visible f) he m.heap = .ok v h ->
      exists n, m.run n = (.running, { m with
        heap := h, stack := m.stack.push v
        frames := { f with ip := f.ip + e.size } :: rest })) ∧
    (forall fault h, e.eval (m.visible f) he m.heap = .error fault h ->
      exists n m' ip operands, m.run n = (.running, m') ∧ f.ip <= ip ∧ ip < f.ip + e.size ∧
        m'.raised? = some (.fault fault) ∧
        m'.tick = Machine.unwind { m with
          heap := h, stack := m.stack ++ operands
          frames := { f with ip := ip + 1 } :: rest } fault.value) := by
  let P : Place := ⟨m, f, rest, f.ip + e.size⟩
  have hlies : P.Lies f.ip (e.code k) := by
    rw [Place.Lies, along_iff]
    intro j x hx
    have hj : j < (e.code k).length := (List.getElem?_eq_some_iff.mp hx).1
    rw [Expr.length_code] at hj
    exact ⟨along_iff.mp hcode j x hx, Nat.le_add_right _ _, Nat.add_lt_add_left hj _⟩
  have hstart : P.state f.ip [] m.heap = m := by
    cases m
    cases hf
    simp [P, Place.state]
  have hgives : P.Gives (P.state f.ip [] m.heap) _ _ := Expr.gives e he hw rfl hlies hk rfl
  rw [hstart] at hgives
  constructor
  · intro v h hv
    have hresult : e.eval P.visible he m.heap = .ok v h := hv
    rw [hresult] at hgives
    rcases hgives with ⟨-, n, -, hrun⟩
    refine ⟨n, hrun.trans ?_⟩
    simp [P, Place.state]
  · intro fault h hv
    have hresult : e.eval P.visible he m.heap = .error fault h := hv
    rw [hresult] at hgives
    rcases hgives with ⟨m', ⟨n, -, hrun⟩, ip, operands, hlo, hhi, hraised, htick⟩
    exact ⟨n, m', ip, operands.toArray, hrun, hlo, hhi, hraised, htick⟩

end Machine

/-! ## An expression inside a call -/

/-- A script whose function gives back a table with an array in it. -/
def wrapping : String :=
  "function f(x) \x7b return x and \x7b \"k\": [x, x[0]] \x7d \x7d echo f(\"ab\")"

def wrapped : Expr :=
  .connect .and (.read (.slot 1) 1) 1
    (.table [.text "k" 1, .array [.read (.slot 1) 1,
      .binary .get (.read (.slot 1) 1) (.literal (.int 0) 1) 1] 1] 1)

theorem wrapped_steady : wrapped.Steady :=
  ⟨trivial, trivial, ⟨trivial, ⟨trivial, trivial⟩, trivial⟩, trivial⟩

def wrapper : Machine :=
  ((Interpreter.begun wrapping).run 5).2

theorem wrapper_runs_as_evaluated :
    wrapper.frames = [⟨0, 0, 1⟩, ⟨1, 5, 0⟩] ∧
      exists n h, wrapper.run n = (.running, { wrapper with
        heap := h, stack := wrapper.stack.push (.table 0)
        frames := [⟨0, 10, 1⟩, ⟨1, 5, 0⟩] }) := by
  have hfacts : wrapper.frames = [⟨0, 0, 1⟩, ⟨1, 5, 0⟩] ∧ wrapper.stack.size = 3 ∧
      (wrapper.heap.function 0).code.constants = #[.text "k"] ∧
      (wrapper.heap.function 0).code.instrs.toList =
        (wrapped.code fun _ => 0).map Prod.fst ++ [.ret, .literal .none, .ret] ∧
      (match wrapped.eval (wrapper.visible ⟨0, 0, 1⟩) wrapped_steady wrapper.heap with
        | .ok v _ => some v
        | .error _ _ => none) = some (.table 0) := by
    decide +kernel
  rcases hfacts with ⟨hframes, hsize, hconstants, hinstrs, heval⟩
  have hw : wrapped.Within (fun _ => True) (wrapper.stack.size - 1) := by
    rw [hsize]
    simp [wrapped, Expr.Within, Expr.AllWithin, Variable.Within]
  have hcode : CodeAt (wrapper.heap.function 0) 0 (wrapped.code fun _ => 0) := by
    rw [CodeAt, along_iff]
    intro j x hx
    have hline : ((wrapped.code fun _ => 0).map Prod.fst)[j]? = some x.1 := by
      rw [List.getElem?_map, hx]
      rfl
    rw [Nat.zero_add, ← Array.getElem?_toList, hinstrs,
      List.getElem?_append_left (List.getElem?_eq_some_iff.mp hline).1, hline]
  have hk : Indexed (wrapper.heap.function 0) (fun _ => 0) wrapped.constants := by
    simp [Indexed, wrapped, Expr.constants, Expr.allConstants, Variable.constants, hconstants]
  have hruns := Machine.expression_runs_as_evaluated wrapped_steady hframes hw hcode hk
  refine ⟨hframes, ?_⟩
  cases hresult : wrapped.eval (wrapper.visible ⟨0, 0, 1⟩) wrapped_steady wrapper.heap with
  | ok v h =>
      rw [hresult] at heval
      cases heval
      rcases hruns.1 _ h hresult with ⟨n, hn⟩
      exact ⟨n, h, hn⟩
  | error fault h =>
      rw [hresult] at heval
      cases heval

end StackScript
