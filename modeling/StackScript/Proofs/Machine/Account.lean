import StackScript.Proofs.Machine.Standing
import StackScript.Proofs.Machine.Steps

/-!
# One description of what instructions do

Whatever is to be known of all instructions is known once it is known of the few things that they
are made of: values go on the stack and off it, slots are read and written, operations are performed
on the heap, calls are opened and left.  An account says what holds of a machine while it carries
out an instruction, and how the instruction may end or fail.  If an account covers each of these
things, it covers the instruction.

An account follows the instruction on two machines side by side, so it can also say that they do the
same.  An account of a single machine follows it beside itself.
-/

namespace StackScript

/-! ## Slots -/

def Instr.writes : Instr -> List Nat
  | setLocal slot | increment slot _ => [slot]
  | forNext slot vars _ => List.range' (slot + 2) (vars + 1)
  | _ => []

theorem Instr.slots_of_writes {i : Instr} {slot : Nat} (h : slot ∈ i.writes) : slot ∈ i.slots := by
  cases i with
  | setLocal | increment => exact h
  | forNext slot vars offset =>
      rw [Instr.writes, List.mem_range'_1] at h
      rw [Instr.slots, List.mem_range'_1]
      lia
  | _ => cases h

/-! ## Successors -/

/-- Whether an instruction can lead elsewhere than to the next one, unless it raises something. -/
def Instr.moves : Instr -> Bool
  | jump _ | jumpIfFalse _ | jumpIfTrue _ | loop _ | forBegin _ _ _ | forNext _ _ _ | ret => true
  | _ => false

namespace Instr

variable {i : Instr} {ip offset : Nat}

theorem mem_successors_of_continues (hi : i.continues = true) : ip + 1 ∈ i.successors ip := by
  simp [successors, hi]

theorem mem_successors_of_jumpTarget? {t : Nat} (hi : i.jumpTarget? ip = some t) :
    t ∈ i.successors ip := by
  simp [successors, hi]

theorem mem_successors_of_backOffset? (hi : i.backOffset? = some offset) (hle : offset <= ip + 1) :
    ip + 1 - offset ∈ i.successors ip := by
  apply mem_successors_of_jumpTarget?
  cases i with
  | loop | forNext =>
      cases hi
      exact if_pos hle
  | _ => cases hi

theorem moves_of_jumpTarget? {t : Nat} (hi : i.jumpTarget? ip = some t) : i.moves = true := by
  cases i with
  | jump | jumpIfFalse | jumpIfTrue | loop | forBegin | forNext => rfl
  | _ => cases hi

theorem moves_of_backOffset? (hi : i.backOffset? = some offset) : i.moves = true := by
  cases i with
  | loop | forNext => rfl
  | _ => cases hi

end Instr

/-- A loop over a collection has one variable or two. -/
def Instr.Regular (i : Instr) : Prop :=
  forall vars, i.loopVariables? = some vars -> vars = 1 ∨ vars = 2

theorem Instr.regular_of_moves {i : Instr} (hi : i.moves = false) : i.Regular := by
  intro vars hvars
  cases i with
  | forBegin | forNext => cases hi
  | _ => cases hvars

/-! ## Loop variables -/

theorem length_loopVariables {object key value : Value} {vars : Nat} (hvars : vars = 1 ∨ vars = 2) :
    (loopVariables object vars key value).length = vars := by
  rcases hvars with rfl | rfl
  · cases object <;> rfl
  · rfl

theorem forall_mem_loopVariables {P : Value -> Prop} {object key value : Value} {vars : Nat}
    (hkey : P key) (hvalue : P value) :
    forall v, v ∈ loopVariables object vars key value -> P v := by
  intro v hv
  unfold loopVariables at hv
  split at hv
  · rwa [List.mem_singleton.mp hv]
  · rwa [List.mem_singleton.mp hv]
  · rcases List.mem_pair.mp hv with rfl | rfl
    · exact hkey
    · exact hvalue

/-! ## Accounts -/

/-- How far an instruction has come. -/
structure Stage where
  heap : Heap
  /-- How many values it sees on the stack. -/
  height : Nat
  /-- Whether it has written into a slot. -/
  wrote : Bool := false

/-- What is said of two machines that carry out the same instruction. -/
structure Account where
  /-- The functions of their host. -/
  natives : Array Native
  files : Files
  /-- The values that the instruction handles over a heap. -/
  Good : Heap -> Value -> Prop
  /-- The machines in the course of the instruction. -/
  At : Stage -> Machine -> Machine -> Prop
  /-- The machines when it is completed. -/
  Ends : Machine -> Machine -> Prop
  /-- The machines when it has raised something. -/
  Fails : Raised -> Machine -> Machine -> Prop

namespace Account

variable {A : Account}

/-- The same result on both machines. -/
inductive Same {α : Type} (A : Account) (Q : α -> Machine -> Machine -> Prop) :
    EStateM.Result Raised Machine α -> EStateM.Result Raised Machine α -> Prop where
  | ok {a : α} {m m' : Machine} : Q a m m' -> Same A Q (.ok a m) (.ok a m')
  | error {e : Raised} {m m' : Machine} : A.Fails e m m' -> Same A Q (.error e m) (.error e m')

/-- A piece of the instruction that ends as `Q` says or fails as the instruction may. -/
def Safe {α : Type} (A : Account) (p : Stage) (Q : α -> Machine -> Machine -> Prop)
    (x : Exec α) : Prop :=
  forall m m', A.At p m m' -> A.Same Q (x m) (x m')

/-- A piece after which the instruction goes on, from a stage that `R` names. -/
def Gives {α : Type} (A : Account) (p : Stage) (R : α -> Stage -> Prop) (x : Exec α) : Prop :=
  A.Safe p (fun a m m' => exists q, R a q ∧ A.At q m m') x

/-- A piece with which the instruction is completed. -/
def Completes (A : Account) (p : Stage) (x : Exec Unit) : Prop :=
  A.Safe p (fun _ => A.Ends) x

theorem Completes.of_ok {p : Stage} {x : Exec Unit} {m m1 : Machine} (h : A.Completes p x)
    (hm : A.At p m m) (hok : x m = .ok () m1) : A.Ends m1 m1 := by
  have hsame := h m m hm
  rw [hok] at hsame
  cases hsame
  assumption

theorem Completes.of_error {p : Stage} {x : Exec Unit} {m m1 : Machine} {e : Raised}
    (h : A.Completes p x) (hm : A.At p m m) (herror : x m = .error e m1) : A.Fails e m1 m1 := by
  have hsame := h m m hm
  rw [herror] at hsame
  cases hsame
  assumption

/-- An account that covers what an instruction is made of, which sees `start` values on the stack
when it begins. -/
structure Covers (A : Account) (i : Instr) (start : Nat) : Prop where
  /-- The machines have the same to show. -/
  heap {p : Stage} {m m' : Machine} : A.At p m m' -> m.heap = p.heap ∧ m'.heap = p.heap
  stack {p : Stage} {m m' : Machine} : A.At p m m' -> m'.stack = m.stack
  globals {p : Stage} {m m' : Machine} : A.At p m m' -> Table.Same m.globals m'.globals
  natives {p : Stage} {m m' : Machine} :
    A.At p m m' -> m.natives = A.natives ∧ m'.natives = A.natives
  files {p : Stage} {m m' : Machine} : A.At p m m' -> m.files = A.files ∧ m'.files = A.files
  candidates {p : Stage} {m m' : Machine} (target : String) :
    A.At p m m' -> m'.candidates target = m.candidates target
  /-- What the instruction finds is good. -/
  plain (h : Heap) {v : Value} : v.Plain -> A.Good h v
  operand {p : Stage} {m m' : Machine} {d : Nat} : A.At p m m' -> start <= p.height + i.taken ->
    d < p.height -> d < m.stack.size -> A.Good p.heap (m.stack.getD (m.stack.size - 1 - d) .none)
  global {p : Stage} {m m' : Machine} {x : String} {v : Value} : A.At p m m' ->
    m.globals[x]? = some v -> A.Good p.heap v
  item {p : Stage} {m m' : Machine} {object keys key value : Value} {index : Nat} :
    A.At p m m' -> p.heap.iteration object keys index = some (key, value) ->
      A.Good p.heap key ∧ A.Good p.heap value
  /-- It may fail as long as it has written nothing. -/
  fault {p : Stage} {m m' : Machine} {f : Fault} : A.At p m m' -> p.wrote = false ->
    start <= p.height + i.taken -> i.quiet = false -> f.internal = false -> A.Fails (.fault f) m m'
  thrown {p : Stage} {m m' : Machine} {v : Value} : A.At p m m' -> p.wrote = false ->
    start <= p.height + i.taken -> i.quiet = false -> A.Good p.heap v -> A.Fails (.value v) m m'
  short {p : Stage} {m m' : Machine} : A.At p m m' -> p.wrote = false ->
    start <= p.height + i.taken -> m.stack.size < p.height -> A.Fails (.fault .stackUnderflow) m m'
  /-- Values go on the stack and off it. -/
  pushes {p : Stage} {m m' : Machine} {v : Value} : A.At p m m' -> A.Good p.heap v ->
    A.At { p with height := p.height + 1 } { m with stack := m.stack.push v }
      { m' with stack := m'.stack.push v }
  takes {p : Stage} {m m' : Machine} {n k : Nat} : A.At p m m' -> p.height = n + k ->
    p.wrote = false -> start <= n + i.taken -> k <= m.stack.size ->
    A.At { p with height := n } { m with stack := m.stack.take (m.stack.size - k) }
      { m' with stack := m'.stack.take (m.stack.size - k) }
  /-- Slots are read and written. -/
  reads {p : Stage} {slot : Nat} : slot ∈ i.slots -> p.wrote = false -> start <= p.height ->
    A.Gives p (fun v q => q = p ∧ (i = .getLocal slot -> A.Good p.heap v)) (Exec.getLocal slot)
  writes {p : Stage} {slot : Nat} {v : Value} : (i.Regular -> slot ∈ i.writes) ->
    start <= p.height -> A.Good p.heap v ->
    A.Gives p (fun _ q => q = { p with wrote := true }) (Exec.setLocal slot v)
  /-- Constants are fetched. -/
  constants {p : Stage} {k : Nat} : i = .constant k -> p.wrote = false -> start <= p.height ->
    A.Gives p (fun v q => q = p ∧ A.Good p.heap v) (Exec.constant k)
  names {p : Stage} {k : Nat} : i.name? = some k -> p.wrote = false -> start <= p.height ->
    A.Gives p (fun _ q => q = p) (Exec.name k)
  /-- Globals are given values, and texts are written. -/
  defines {p : Stage} {m m' : Machine} {x : String} {v : Value} : A.At p m m' -> A.Good p.heap v ->
    A.At p { m with globals := m.globals.insert x v } { m' with globals := m'.globals.insert x v }
  outputs {p : Stage} {m m' : Machine} {s : String} : A.At p m m' ->
    A.At p { m with output := m.output ++ s } { m' with output := m'.output ++ s }
  /-- Operations are performed on the heap. -/
  acts {p : Stage} {m m' : Machine} {writes : Bool} {args : List Value} {v : Value} {h : Heap} :
    A.At p m m' -> p.heap.Acts writes args (.ok v h) -> (forall w, w ∈ args -> A.Good p.heap w) ->
      A.Good h v ∧ A.At { p with heap := h } { m with heap := h } { m' with heap := h }
  /-- Functions of the host are called, and scripts are compiled. -/
  host {p : Stage} {m m' : Machine} {count : Nat} {native : Native} {args : Array Value} :
    A.At p m m' -> i = .call count -> native ∈ A.natives ->
      (forall w, w ∈ args -> A.Good p.heap w) ->
      (forall v, (native p.heap args).1 = .ok v ∨ (native p.heap args).1 = .error v ->
        A.Good (native p.heap args).2 v) ∧
      A.At { p with heap := (native p.heap args).2 } { m with heap := (native p.heap args).2 }
        { m' with heap := (native p.heap args).2 }
  compiled {p : Stage} {m m' : Machine} {path source : String} {id : Nat} {h : Heap} :
    A.At p m m' -> i = .use -> A.files.read path = .ok source ->
      p.heap.compile (some path) source = .ok (id, h) ->
      A.Good h (.function id) ∧
      A.At { p with heap := h } { m with heap := h } { m' with heap := h }
  /-- Control goes on. -/
  next {p : Stage} {m m' : Machine} : A.At p m m' -> i.continues = true ->
    (i.Regular -> p.height + i.taken = start + i.given) -> A.Ends m m'
  forward {p : Stage} {offset : Nat} : (forall ip, i.jumpTarget? ip = some (ip + 1 + offset)) ->
    p.wrote = false -> p.height + i.taken = start + i.given ->
    A.Completes p (Exec.jumpForward offset)
  back {p : Stage} {offset : Nat} : i.backOffset? = some offset ->
    p.height + i.taken = start + i.given -> A.Completes p (Exec.jumpBack offset)
  enters {p : Stage} {id count : Nat} : i.opens = true -> i.taken = count + 1 ->
    p.wrote = false -> p.height = start -> A.Good p.heap (.function id) ->
    A.Completes p (Exec.enter id count)
  leaves {p : Stage} : i = .ret -> p.wrote = false -> p.height = start ->
    A.Completes p Exec.leave

/-! ## Rules for pieces -/

section Rules

variable {α β : Type} {p : Stage} {x : Exec α} {g : α -> Exec β} {R : α -> Stage -> Prop}
variable {Q : β -> Machine -> Machine -> Prop}

theorem Gives.bind (hx : A.Gives p R x) (hg : forall a q, R a q -> A.Safe q Q (g a)) :
    A.Safe p Q (x >>= g) := by
  intro m m' hm
  have hxm := hx m m' hm
  generalize hr : x m = r at hxm
  generalize hr' : x m' = r' at hxm
  cases hxm with
  | ok hq =>
      rcases hq with ⟨q, hq, hat⟩
      rw [Exec.bind_ok hr, Exec.bind_ok hr']
      exact hg _ q hq _ _ hat
  | error hfails =>
      rw [Exec.bind_error hr, Exec.bind_error hr']
      exact .error hfails

/-- A piece that looks at the machine first. -/
theorem safe_get {g : Machine -> Exec β}
    (hg : forall m m', A.At p m m' -> A.Same Q (g m m) (g m' m')) :
    A.Safe p Q (get >>= g) := by
  intro m m' hm
  rw [Exec.bind_ok Exec.get_apply, Exec.bind_ok Exec.get_apply]
  exact hg m m' hm

/-- A piece that looks at the machine first, but only at what both machines have to show. -/
theorem safe_look {g : Machine -> Exec β}
    (hg : forall m m', A.At p m m' -> g m' = g m ∧ A.Safe p Q (g m)) : A.Safe p Q (get >>= g) := by
  refine safe_get fun m m' hm => ?_
  rcases hg m m' hm with ⟨hsame, hsafe⟩
  rw [hsame]
  exact hsafe m m' hm

theorem gives_pure {a : α} (ha : R a p) : A.Gives p R (pure a) :=
  fun _ _ hm => .ok ⟨p, ha, hm⟩

/-- Where any fault may be raised, a constant may be looked at as a name. -/
theorem gives_name {k : Nat} {R : Value -> Stage -> Prop} (hk : A.Gives p R (Exec.constant k))
    (hsame : forall v q, R v q -> q = p)
    (hfault : forall f m m', A.At p m m' -> A.Fails (.fault f) m m') :
    A.Gives p (fun _ q => q = p) (Exec.name k) := by
  refine hk.bind fun v q hq => ?_
  cases hsame v q hq
  cases v with
  | text x => exact gives_pure rfl
  | _ => exact fun m m' hm => .error (hfault _ m m' hm)

end Rules

namespace Covers

open Exec

section Pieces

variable {i : Instr} {start k n slot : Nat} {p : Stage} {m m' : Machine} {v : Value}

theorem safe_fail {α : Type} {Q : α -> Machine -> Machine -> Prop} {f : Fault}
    (hA : A.Covers i start) (hwrote : p.wrote = false) (hheight : start <= p.height + i.taken)
    (hquiet : i.quiet = false) (hf : f.internal = false) : A.Safe p Q (fail f) :=
  fun _ _ hm => .error (hA.fault hm hwrote hheight hquiet hf)

/-! ### The stack -/

theorem gives_push (hA : A.Covers i start) (hv : A.Good p.heap v) :
    A.Gives p (fun _ q => q = { p with height := p.height + 1 }) (push v) :=
  fun _ _ hm => .ok ⟨_, rfl, hA.pushes hm hv⟩

theorem gives_peek (hA : A.Covers i start) (hwrote : p.wrote = false)
    (hheight : start <= p.height + i.taken) {d : Nat} (hd : d < p.height) :
    A.Gives p (fun v q => q = p ∧ A.Good p.heap v) (peek d) := by
  intro m m' hm
  have hstack := hA.stack hm
  by_cases hsize : d < m.stack.size
  · rw [peek_apply hsize, peek_apply (hstack ▸ hsize), hstack]
    exact .ok ⟨p, ⟨rfl, hA.operand hm hheight hd hsize⟩, hm⟩
  · have hshort (w : Machine) (hw : w.stack = m.stack) :
        peek d w = .error (.fault .stackUnderflow) w := by
      unfold peek
      rw [bind_ok get_apply, hw, if_neg hsize]
      rfl
    rw [hshort m rfl, hshort m' hstack]
    exact .error (hA.short hm hwrote hheight (by lia))

theorem gives_popMany (hA : A.Covers i start) (hwrote : p.wrote = false)
    (hheight : p.height = n + k) (hn : start <= n + i.taken) :
    A.Gives p (fun vs q => q = { p with height := n } ∧ forall v, v ∈ vs -> A.Good p.heap v)
      (popMany k) := by
  intro m m' hm
  have hstack := hA.stack hm
  by_cases hk : k <= m.stack.size
  · rw [popMany_apply hk, popMany_apply (hstack ▸ hk), hstack]
    refine .ok ⟨_, ⟨rfl, fun v hv => ?_⟩, hstack ▸ hA.takes hm hheight hwrote hn hk⟩
    rcases Array.getElem?_of_mem hv with ⟨j, hj⟩
    rw [Array.drop_eq_extract, Array.getElem?_extract] at hj
    split at hj
    · rename_i hlt
      have hplace : m.stack.size - 1 - (k - 1 - j) = m.stack.size - k + j := by lia
      have hgood := hA.operand (d := k - 1 - j) hm (by lia) (by lia) (by lia)
      rwa [hplace, Array.getD_eq_getD_getElem?, hj] at hgood
    · cases hj
  · have hshort (w : Machine) (hw : w.stack = m.stack) :
        popMany k w = .error (.fault .stackUnderflow) w := by
      unfold popMany
      rw [bind_ok get_apply, hw, if_neg hk]
      rfl
    rw [hshort m rfl, hshort m' hstack]
    exact .error (hA.short hm hwrote (by lia) (by lia))

theorem gives_pop (hA : A.Covers i start) (hwrote : p.wrote = false) (hheight : p.height = n + 1)
    (hn : start <= n + i.taken) :
    A.Gives p (fun v q => q = { p with height := n } ∧ A.Good p.heap v) pop := by
  intro m m' hm
  have hstack := hA.stack hm
  rcases Nat.eq_zero_or_pos m.stack.size with hzero | hpos
  · have hempty := Array.eq_empty_of_size_eq_zero hzero
    rw [pop_empty hempty, pop_empty (hstack.trans hempty)]
    exact .error (hA.short hm hwrote (by lia) (by lia))
  · rcases Array.exists_push_of_size_pos hpos with ⟨s, v, hs⟩
    have hgood := hA.operand (d := 0) hm (by lia) (by lia) hpos
    have htaken := hA.takes hm hheight hwrote hn hpos
    rw [hstack, hs] at htaken
    rw [hs] at hgood
    simp only [Array.take_eq_extract, Array.size_push, Nat.add_sub_cancel, Array.extract_push_of_le,
      Nat.le_refl, Array.extract_size, Nat.sub_zero, Array.getD_eq_getD_getElem?,
      Array.getElem?_push_size, Option.getD_some] at htaken hgood
    rw [pop_apply hs, pop_apply (hstack.trans hs)]
    exact .ok ⟨_, ⟨rfl, hgood⟩, htaken⟩

theorem gives_pushAll (hA : A.Covers i start) (vs : List Value)
    (hvs : forall v, v ∈ vs -> A.Good p.heap v) :
    A.Gives p (fun _ q => q = { p with height := p.height + vs.length }) (pushAll vs) := by
  induction vs generalizing p with
  | nil => exact gives_pure rfl
  | cons v vs ih =>
      refine (hA.gives_push (hvs v List.mem_cons_self)).bind ?_
      rintro _ _ rfl
      have hrest := ih (p := { p with height := p.height + 1 })
        fun w hw => hvs w (List.mem_cons_of_mem _ hw)
      rwa [Nat.add_assoc, Nat.add_comm 1] at hrest

theorem gives_setLocals (hA : A.Covers i start) (vs : List Value) (hheight : start <= p.height)
    (hslots : i.Regular -> forall s, slot <= s -> s < slot + vs.length -> s ∈ i.writes)
    (hvs : forall v, v ∈ vs -> A.Good p.heap v) :
    A.Gives p (fun _ q => q.heap = p.heap ∧ q.height = p.height) (setLocals slot vs) := by
  induction vs generalizing p slot with
  | nil => exact gives_pure ⟨rfl, rfl⟩
  | cons v vs ih =>
      rw [List.length_cons] at hslots
      refine (hA.writes (fun hi => hslots hi slot (Nat.le_refl _) (by lia)) hheight
        (hvs v List.mem_cons_self)).bind ?_
      rintro _ _ rfl
      exact ih (p := { p with wrote := true }) hheight
        (fun hi s hs hlt => hslots hi s (by lia) (by lia))
        fun w hw => hvs w (List.mem_cons_of_mem _ hw)

/-- A piece behind which control goes on with the next instruction. -/
theorem completes_of_gives (hA : A.Covers i start) {x : Exec Unit} {R : Unit -> Stage -> Prop}
    (hx : A.Gives p R x) (hi : i.continues = true)
    (hend : forall q, R () q -> i.Regular -> q.height + i.taken = start + i.given) :
    A.Completes p x := by
  intro m m' hm
  have hxm := hx m m' hm
  generalize x m = r at hxm
  generalize x m' = r' at hxm
  cases hxm with
  | ok hq =>
      rcases hq with ⟨q, hq, hat⟩
      exact .ok (hA.next hat hi (hend q hq))
  | error hfails => exact .error hfails

theorem completes_pure (hA : A.Covers i start) (hi : i.continues = true)
    (hend : p.height + i.taken = start + i.given) : A.Completes p (pure ()) :=
  fun _ _ hm => .ok (hA.next hm hi fun _ => hend)

theorem completes_push (hA : A.Covers i start) (hv : A.Good p.heap v) (hi : i.continues = true)
    (hend : p.height + 1 + i.taken = start + i.given) : A.Completes p (push v) := by
  refine hA.completes_of_gives (hA.gives_push hv) hi ?_
  rintro _ rfl -
  exact hend

/-! ### Globals -/

theorem gives_defineGlobal (hA : A.Covers i start) {x : String} (hv : A.Good p.heap v) :
    A.Gives p (fun _ q => q = p) (defineGlobal x v) :=
  fun _ _ hm => .ok ⟨p, rfl, hA.defines hm hv⟩

theorem gives_getGlobal (hA : A.Covers i start) (hwrote : p.wrote = false)
    (hheight : start <= p.height + i.taken) (hquiet : i.quiet = false) {x : String} :
    A.Gives p (fun v q => q = p ∧ A.Good p.heap v) (getGlobal x) := by
  refine safe_look fun m m' hm => ⟨by simp only [hA.globals hm x], ?_⟩
  cases hv : m.globals[x]? with
  | some v => exact gives_pure ⟨rfl, hA.global hm hv⟩
  | none => exact hA.safe_fail hwrote hheight hquiet rfl

theorem gives_setGlobal (hA : A.Covers i start) (hwrote : p.wrote = false)
    (hheight : start <= p.height + i.taken) (hquiet : i.quiet = false) {x : String}
    (hv : A.Good p.heap v) : A.Gives p (fun _ q => q = p) (setGlobal x v) := by
  refine safe_look fun m m' hm => ⟨by simp only [(hA.globals hm).contains x], ?_⟩
  split
  · exact hA.gives_defineGlobal hv
  · exact hA.safe_fail hwrote hheight hquiet rfl

/-! ### The heap -/

theorem gives_perform (hA : A.Covers i start) (hwrote : p.wrote = false)
    (hheight : start <= p.height + i.taken) (hquiet : i.quiet = false) {g : Heap -> Answer}
    {writes : Bool} {args : List Value} (hop : p.heap.Acts writes args (g p.heap))
    (hargs : forall w, w ∈ args -> A.Good p.heap w) :
    A.Gives p (fun v q => exists h, q = { p with heap := h } ∧ A.Good h v) (perform g) := by
  intro m m' hm
  rcases hA.heap hm with ⟨hheap, hheap'⟩
  cases hr : g p.heap with
  | error f h =>
      rw [hr] at hop
      rcases hop.of_error with ⟨rfl, hf⟩
      have hfails (w : Machine) (hw : w.heap = p.heap) : perform g w = .error (.fault f) w :=
        perform_error (h := w.heap) (by rw [hw, hr])
      rw [hfails m hheap, hfails m' hheap']
      exact .error (hA.fault hm hwrote hheight hquiet hf)
  | ok v h =>
      rw [hr] at hop
      have hacts := hA.acts hm hop hargs
      rw [perform_ok (hheap.symm ▸ hr), perform_ok (hheap'.symm ▸ hr)]
      exact .ok ⟨_, ⟨h, rfl, hacts.1⟩, hacts.2⟩

/-- A new array of good values. -/
theorem gives_newArray (hA : A.Covers i start) {g : Heap -> Array Value}
    (hitems : forall w, w ∈ g p.heap -> A.Good p.heap w) :
    A.Gives p (fun v q => exists h, q = { p with heap := h } ∧ A.Good h v)
      (allocate fun h => h.newArray (g h)) := by
  intro m m' hm
  rcases hA.heap hm with ⟨hheap, hheap'⟩
  have hacts : p.heap.Acts false (g p.heap).toList (.of (p.heap.newArray (g p.heap))) :=
    .makesArray fun w hw => .argument (Array.mem_def.mp hw)
  have hmade := hA.acts hm hacts fun w hw => hitems w (Array.mem_def.mpr hw)
  rw [allocate_apply, allocate_apply, hheap, hheap']
  exact .ok ⟨_, ⟨_, rfl, hmade.1⟩, hmade.2⟩

/-- An operation is performed and its answer put on the stack. -/
theorem completes_perform (hA : A.Covers i start) (hwrote : p.wrote = false)
    (hheight : start <= p.height + i.taken) (hquiet : i.quiet = false) {g : Heap -> Answer}
    {writes : Bool} {args : List Value} (hop : p.heap.Acts writes args (g p.heap))
    (hargs : forall w, w ∈ args -> A.Good p.heap w) (hi : i.continues = true)
    (hend : p.height + 1 + i.taken = start + i.given) :
    A.Completes p (do push (← perform g)) := by
  refine (hA.gives_perform hwrote hheight hquiet hop hargs).bind ?_
  rintro v _ ⟨h, rfl, hv⟩
  exact hA.completes_push hv hi hend

/-! ### Iterations -/

theorem gives_iterationKeys (hA : A.Covers i start) (hwrote : p.wrote = false)
    (hheight : start <= p.height + i.taken) (hquiet : i.quiet = false) {object : Value} :
    A.Gives p (fun v q => exists h, q = { p with heap := h } ∧ A.Good h v)
      (iterationKeys object) := by
  unfold iterationKeys
  split
  · exact gives_pure ⟨p.heap, rfl, hA.plain _ trivial⟩
  · exact hA.gives_newArray fun v hv => hA.plain _ (Heap.plain_sortedKeys _ v hv)
  · exact hA.gives_newArray (g := fun _ => characters _) fun v hv =>
      hA.plain _ (Heap.plain_characters _ v hv)
  · exact hA.safe_fail hwrote hheight hquiet rfl

theorem gives_nextIndex (hA : A.Covers i start) (hwrote : p.wrote = false)
    (hheight : start <= p.height + i.taken) (hquiet : i.quiet = false) :
    A.Gives p (fun _ q => q = p) (nextIndex v) := by
  cases v with
  | integer n => exact gives_pure rfl
  | _ => exact hA.safe_fail hwrote hheight hquiet rfl

theorem beginIteration {vars offset : Nat} {h : Heap}
    (hA : A.Covers (.forBegin slot vars offset) start) :
    A.Completes ⟨h, start, false⟩ (beginIteration slot vars offset) := by
  refine (hA.reads (List.mem_singleton_self _) rfl (Nat.le_refl _)).bind ?_
  rintro object _ ⟨rfl, -⟩
  refine (hA.gives_iterationKeys rfl (Nat.le_add_right _ _) rfl).bind ?_
  rintro keys _ ⟨h', rfl, hkeys⟩
  refine (hA.gives_push hkeys).bind ?_
  rintro _ _ rfl
  refine (hA.gives_push (hA.plain h' (v := .integer 0) trivial)).bind ?_
  rintro _ _ rfl
  refine safe_get fun m m' hm => ?_
  rcases hA.heap hm with ⟨hheap, hheap'⟩
  rw [hheap, hheap']
  cases hitem : Heap.iteration _ object keys 0 with
  | some found =>
      rcases hA.item hm hitem with ⟨hkey, hvalue⟩
      refine hA.completes_of_gives (hA.gives_pushAll _ (forall_mem_loopVariables hkey hvalue)) rfl
        ?_ m m' hm
      rintro _ rfl hregular
      rw [length_loopVariables (hregular vars rfl)]
      simp
      lia
  | none =>
      have hnone (v : Value) (hv : v ∈ List.replicate vars Value.none) : A.Good h' v := by
        rw [List.eq_of_mem_replicate hv]
        exact hA.plain h' trivial
      refine Gives.bind (hA.gives_pushAll _ hnone) ?_ m m' hm
      rintro _ _ rfl
      exact hA.forward (fun _ => rfl) rfl (by simp; lia)

theorem continueIteration {vars offset : Nat} {h : Heap}
    (hA : A.Covers (.forNext slot vars offset) start) :
    A.Completes ⟨h, start, false⟩ (continueIteration slot vars offset) := by
  have hslot (d : Nat) (hd : d < 3) : slot + d ∈ (Instr.forNext slot vars offset).slots := by
    rw [Instr.slots, List.mem_range'_1]
    lia
  refine (hA.reads (hslot 0 (by lia)) rfl (Nat.le_refl _)).bind ?_
  rintro object _ ⟨rfl, -⟩
  refine (hA.reads (hslot 1 (by lia)) rfl (Nat.le_refl _)).bind ?_
  rintro keys _ ⟨rfl, -⟩
  refine (hA.reads (hslot 2 (by lia)) rfl (Nat.le_refl _)).bind ?_
  rintro last _ ⟨rfl, -⟩
  refine (hA.gives_nextIndex rfl (Nat.le_add_right _ _) rfl).bind ?_
  rintro index _ rfl
  have hindex : slot + 2 ∈ (Instr.forNext slot vars offset).writes := by
    rw [Instr.writes, List.mem_range'_1]
    lia
  refine (hA.writes (fun _ => hindex) (Nat.le_refl _)
    (hA.plain h (v := .integer _) trivial)).bind ?_
  rintro _ _ rfl
  refine safe_get fun m m' hm => ?_
  rcases hA.heap hm with ⟨hheap, hheap'⟩
  rw [hheap, hheap']
  cases hitem : Heap.iteration _ object keys index with
  | some found =>
      rcases hA.item hm hitem with ⟨hkey, hvalue⟩
      refine Gives.bind (hA.gives_setLocals _ (Nat.le_refl _) ?_
        (forall_mem_loopVariables hkey hvalue)) ?_ m m' hm
      · intro hregular s hs hlt
        rw [length_loopVariables (hregular vars rfl)] at hlt
        rw [Instr.writes, List.mem_range'_1]
        lia
      · rintro _ q ⟨-, hheight⟩
        exact hA.back rfl hheight
  | none => exact hA.completes_pure rfl rfl m m' hm

/-! ### Calls -/

theorem callNative {count : Nat} {h : Heap} {native : Native}
    (hA : A.Covers (.call count) (n + (count + 1)))
    (hnative : native ∈ A.natives) :
    A.Completes ⟨h, n + (count + 1), false⟩ (callNative native count) := by
  refine (hA.gives_popMany (n := n + 1) rfl (by simp; lia) (by simp)).bind ?_
  rintro args _ ⟨rfl, hargs⟩
  refine (hA.gives_pop rfl rfl (by simp)).bind ?_
  rintro _ _ ⟨rfl, -⟩
  refine safe_get fun m m' hm => ?_
  rcases hA.heap hm with ⟨hheap, hheap'⟩
  rcases hA.host hm rfl hnative hargs with ⟨hgood, hat⟩
  rw [hheap, hheap']
  revert hgood hat
  rcases native h args with ⟨v | v, h'⟩
  · intro hgood hat
    exact .error (hA.thrown hat rfl (by simp) rfl (hgood v (Or.inr rfl)))
  · intro hgood hat
    exact hA.completes_push (hgood v (Or.inl rfl)) rfl (by simp; lia) _ _ hat

theorem call {count : Nat} {h : Heap} (hA : A.Covers (.call count) (n + (count + 1))) :
    A.Completes ⟨h, n + (count + 1), false⟩ (call count) := by
  refine (hA.gives_peek rfl (Nat.le_add_right _ _) (by simp; lia)).bind ?_
  rintro callee _ ⟨rfl, hcallee⟩
  split
  · exact hA.enters rfl rfl rfl rfl hcallee
  · rename_i x id
    refine safe_look fun m m' hm => ⟨by simp only [hA.natives hm], ?_⟩
    rw [(hA.natives hm).1]
    cases hnative : A.natives[id]? with
    | some native => exact hA.callNative (Array.mem_of_getElem? hnative)
    | none => exact hA.safe_fail rfl (Nat.le_add_right _ _) rfl rfl
  · exact hA.safe_fail rfl (Nat.le_add_right _ _) rfl rfl

/-! ### Imports -/

theorem gives_importList (hA : A.Covers i start) :
    A.Gives p (fun v q => exists h, q = { p with heap := h } ∧ A.Good h v) importList := by
  refine safe_look fun m m' hm => ⟨by simp only [hA.globals hm Import.importsName], ?_⟩
  split
  · rename_i id hid
    exact gives_pure ⟨p.heap, rfl, hA.global hm hid⟩
  · refine (hA.gives_newArray (g := fun _ => #[]) (by simp)).bind ?_
    rintro imports _ ⟨h, rfl, himports⟩
    refine (hA.gives_defineGlobal (x := Import.importsName) himports).bind ?_
    rintro _ _ rfl
    exact gives_pure ⟨h, rfl, himports⟩

theorem use {h : Heap} (hA : A.Covers .use (n + 1)) : A.Completes ⟨h, n + 1, false⟩ use := by
  have hheight : n + 1 <= n + Instr.use.taken := Nat.le_refl _
  refine (hA.gives_pop rfl rfl hheight).bind ?_
  rintro v _ ⟨rfl, -⟩
  split
  · rename_i target
    have hlocate : A.Gives ⟨h, n, false⟩ (fun _ q => q = ⟨h, n, false⟩) (locate target) := by
      refine safe_look fun m m' hm => ⟨by simp only [hA.candidates target hm, hA.files hm], ?_⟩
      split
      · exact gives_pure rfl
      · exact hA.safe_fail rfl hheight rfl rfl
    refine hlocate.bind ?_
    rintro path _ rfl
    refine hA.gives_importList.bind ?_
    rintro imports _ ⟨h1, rfl, himports⟩
    refine safe_look fun m m' hm => ⟨by simp only [hA.heap hm], ?_⟩
    rw [(hA.heap hm).1]
    split
    · exact hA.completes_push (hA.plain h1 (v := .none) trivial) rfl rfl
    · have hlist : h1.Acts true [imports, .text path] (h1.push imports (.text path)) :=
        Heap.acts_push List.mem_cons_self
      have hboth (w : Value) (hw : w ∈ [imports, .text path]) : A.Good h1 w := by
        rcases List.mem_pair.mp hw with rfl | rfl
        · exact himports
        · exact hA.plain h1 trivial
      refine (hA.gives_perform (g := fun h => h.push imports (.text path)) rfl hheight rfl hlist
        hboth).bind ?_
      rintro _ _ ⟨h2, rfl, -⟩
      have hread : A.Gives ⟨h2, n, false⟩
          (fun source q => q = ⟨h2, n, false⟩ ∧ A.files.read path = .ok source)
          (readScript path) := by
        refine safe_look fun m m' hm => ⟨by simp only [hA.files hm], ?_⟩
        rw [(hA.files hm).1]
        cases A.files.read path with
        | ok source => exact gives_pure ⟨rfl, rfl⟩
        | error e => exact hA.safe_fail rfl hheight rfl rfl
      refine hread.bind ?_
      rintro source _ ⟨rfl, hsource⟩
      have hcompile : A.Gives ⟨h2, n, false⟩
          (fun id q => exists h3, q = ⟨h3, n, false⟩ ∧ A.Good h3 (.function id))
          (compileScript path source) := by
        refine safe_get fun m m' hm => ?_
        rcases hA.heap hm with ⟨hheap, hheap'⟩
        rw [hheap, hheap']
        cases hc : h2.compile (some path) source with
        | ok found =>
            have hmade := hA.compiled hm rfl hsource hc
            exact .ok ⟨_, ⟨found.2, rfl, hmade.1⟩, hmade.2⟩
        | error e => exact .error (hA.fault hm rfl hheight rfl rfl)
      refine hcompile.bind ?_
      rintro id _ ⟨h3, rfl, hid⟩
      refine (hA.gives_push hid).bind ?_
      rintro _ _ rfl
      exact hA.enters rfl rfl rfl rfl hid
  · exact hA.safe_fail rfl hheight rfl rfl

/-! ### Instructions -/

theorem unary {op : UnaryOp} {h : Heap} (hA : A.Covers (.unary op) (n + 1)) :
    A.Completes ⟨h, n + 1, false⟩ (step (.unary op)) := by
  refine (hA.gives_pop rfl rfl (Nat.le_refl _)).bind ?_
  rintro a _ ⟨rfl, ha⟩
  exact hA.completes_perform rfl (Nat.le_refl _) rfl op.acts (by simp [ha]) rfl rfl

theorem binary {op : BinaryOp} {h : Heap} (hA : A.Covers (.binary op) (n + 2)) :
    A.Completes ⟨h, n + 2, false⟩ (step (.binary op)) := by
  refine (hA.gives_pop rfl rfl (by simp)).bind ?_
  rintro b _ ⟨rfl, hb⟩
  refine (hA.gives_pop rfl rfl (Nat.le_refl _)).bind ?_
  rintro a _ ⟨rfl, ha⟩
  exact hA.completes_perform rfl (Nat.le_refl _) rfl op.acts (by simp [ha, hb]) rfl rfl

theorem ternary {op : TernaryOp} {h : Heap} (hA : A.Covers (.ternary op) (n + 3)) :
    A.Completes ⟨h, n + 3, false⟩ (step (.ternary op)) := by
  refine (hA.gives_pop rfl rfl (by simp)).bind ?_
  rintro c _ ⟨rfl, hc⟩
  refine (hA.gives_pop rfl rfl (by simp)).bind ?_
  rintro b _ ⟨rfl, hb⟩
  refine (hA.gives_pop rfl rfl (Nat.le_refl _)).bind ?_
  rintro a _ ⟨rfl, ha⟩
  exact hA.completes_perform rfl (Nat.le_refl _) rfl op.acts (by simp [ha, hb, hc]) rfl rfl

theorem defineGlobal {h : Heap} (hA : A.Covers (.defineGlobal k) (n + 1)) :
    A.Completes ⟨h, n + 1, false⟩ (step (.defineGlobal k)) := by
  refine (hA.names rfl rfl (Nat.le_refl _)).bind ?_
  rintro x _ rfl
  refine (hA.gives_pop rfl rfl (Nat.le_refl _)).bind ?_
  rintro v _ ⟨rfl, hv⟩
  refine hA.completes_of_gives (hA.gives_defineGlobal hv) rfl ?_
  rintro _ rfl -
  rfl

theorem getGlobal {h : Heap} (hA : A.Covers (.getGlobal k) start) :
    A.Completes ⟨h, start, false⟩ (step (.getGlobal k)) := by
  refine (hA.names rfl rfl (Nat.le_refl _)).bind ?_
  rintro x _ rfl
  refine (hA.gives_getGlobal rfl (Nat.le_refl _) rfl).bind ?_
  rintro v _ ⟨rfl, hv⟩
  exact hA.completes_push hv rfl rfl

theorem setGlobal {h : Heap} (hA : A.Covers (.setGlobal k) start) (hreach : 1 <= start) :
    A.Completes ⟨h, start, false⟩ (step (.setGlobal k)) := by
  refine (hA.names rfl rfl (Nat.le_refl _)).bind ?_
  rintro x _ rfl
  refine (hA.gives_peek rfl (Nat.le_refl _) hreach).bind ?_
  rintro v _ ⟨rfl, hv⟩
  refine hA.completes_of_gives (hA.gives_setGlobal rfl (Nat.le_refl _) rfl hv) rfl ?_
  rintro _ rfl -
  rfl

theorem increment {h : Heap} {c : Int64} (hA : A.Covers (.increment slot c) start) :
    A.Completes ⟨h, start, false⟩ (step (.increment slot c)) := by
  have hadd : A.Gives ⟨h, start, false⟩
      (fun v q => exists h', q = ⟨h', start, true⟩ ∧ A.Good h' v) (incrementLocal slot c) := by
    refine (hA.reads (List.mem_singleton_self _) rfl (Nat.le_refl _)).bind ?_
    rintro old _ ⟨rfl, -⟩
    have hsum : h.Acts false [] (answer h (old.add h (.integer c))) :=
      (Heap.finds_operator .add).answer
    refine (hA.gives_perform (g := fun h => answer h (old.add h (.integer c))) rfl (Nat.le_refl _)
      rfl hsum (by simp)).bind ?_
    rintro new _ ⟨h', rfl, hnew⟩
    refine (hA.writes (fun _ => List.mem_singleton_self _) (Nat.le_refl _) hnew).bind ?_
    rintro _ _ rfl
    exact gives_pure ⟨h', rfl, hnew⟩
  refine hadd.bind ?_
  rintro v _ ⟨h', rfl, hv⟩
  exact hA.completes_push hv rfl rfl

theorem getProperty {h : Heap} (hA : A.Covers (.getProperty k) (n + 1)) :
    A.Completes ⟨h, n + 1, false⟩ (step (.getProperty k)) := by
  refine (hA.names rfl rfl (Nat.le_refl _)).bind ?_
  rintro key _ rfl
  refine (hA.gives_pop rfl rfl (Nat.le_refl _)).bind ?_
  rintro object _ ⟨rfl, -⟩
  have hfound : h.Acts false [] (answer h (h.getProperty object key)) :=
    (Heap.finds_getProperty key).answer
  exact hA.completes_perform (g := fun h => answer h (h.getProperty object key)) rfl
    (Nat.le_refl _) rfl hfound (by simp) rfl rfl

theorem setProperty {h : Heap} (hA : A.Covers (.setProperty k) (n + 2)) :
    A.Completes ⟨h, n + 2, false⟩ (step (.setProperty k)) := by
  refine (hA.names rfl rfl (Nat.le_refl _)).bind ?_
  rintro key _ rfl
  refine (hA.gives_pop rfl rfl (by simp)).bind ?_
  rintro value _ ⟨rfl, hvalue⟩
  refine (hA.gives_pop rfl rfl (Nat.le_refl _)).bind ?_
  rintro object _ ⟨rfl, hobject⟩
  have hstored : h.Acts true [object, value] (h.setProperty object key value) :=
    Heap.acts_setProperty List.mem_cons_self
  exact hA.completes_perform (g := fun h => h.setProperty object key value) rfl (Nat.le_refl _)
    rfl hstored (by simp [hobject, hvalue]) rfl rfl

theorem gives_topIsFalsy (hA : A.Covers i start) (hwrote : p.wrote = false)
    (hheight : start <= p.height + i.taken) (hreach : 0 < p.height) :
    A.Gives p (fun _ q => q = p) topIsFalsy := by
  refine (hA.gives_peek hwrote hheight hreach).bind ?_
  rintro v _ ⟨rfl, -⟩
  exact safe_look fun m m' hm => ⟨by simp only [hA.heap hm], gives_pure rfl⟩

/-- A text is made of the topmost value and written. -/
theorem output {h : Heap} (hA : A.Covers i (n + 1)) (text : Value -> Heap -> String)
    (htaken : i.taken = 1) (hgiven : i.given = 0) (hi : i.continues = true) :
    A.Completes ⟨h, n + 1, false⟩ (do
      let v ← pop
      write (text v (← get).heap)) := by
  refine (hA.gives_pop rfl rfl (Nat.le_of_eq (by rw [htaken]))).bind ?_
  rintro v _ ⟨rfl, -⟩
  refine safe_get fun m m' hm => ?_
  rcases hA.heap hm with ⟨hheap, hheap'⟩
  rw [hheap, hheap']
  exact .ok (hA.next (hA.outputs hm) hi fun _ => by rw [htaken, hgiven])

/-- What covers the pieces of an instruction covers the instruction. -/
theorem step {h : Heap} (hA : A.Covers i start) (hreach : i.reach <= start) :
    A.Completes ⟨h, start, false⟩ (step i) := by
  have htake {k : Nat} (hk : k <= start) : exists n, start = n + k :=
    Nat.exists_eq_add_of_le' hk
  cases i with
  | constant k =>
      refine (hA.constants rfl rfl (Nat.le_refl _)).bind ?_
      rintro v _ ⟨rfl, hv⟩
      exact hA.completes_push hv rfl rfl
  | literal v =>
      have hv : v.value.Plain := by cases v <;> trivial
      exact hA.completes_push (hA.plain h hv) rfl rfl
  | pop =>
      rcases htake hreach with ⟨n, rfl⟩
      refine (hA.gives_pop rfl rfl (Nat.le_refl _)).bind ?_
      rintro v _ ⟨rfl, -⟩
      exact hA.completes_pure rfl rfl
  | duplicate =>
      refine (hA.gives_peek rfl (Nat.le_refl _) hreach).bind ?_
      rintro v _ ⟨rfl, hv⟩
      exact hA.completes_push hv rfl rfl
  | duplicatePair =>
      have htwo : 2 <= start := hreach
      refine (hA.gives_peek rfl (Nat.le_refl _) htwo).bind ?_
      rintro a _ ⟨rfl, ha⟩
      refine (hA.gives_peek rfl (Nat.le_refl _) (show 0 < start by lia)).bind ?_
      rintro b _ ⟨rfl, hb⟩
      refine (hA.gives_push ha).bind ?_
      rintro _ _ rfl
      exact hA.completes_push hb rfl rfl
  | unary op =>
      rcases htake hreach with ⟨n, rfl⟩
      exact hA.unary
  | binary op =>
      rcases htake hreach with ⟨n, rfl⟩
      exact hA.binary
  | ternary op =>
      rcases htake hreach with ⟨n, rfl⟩
      exact hA.ternary
  | defineGlobal k =>
      rcases htake hreach with ⟨n, rfl⟩
      exact hA.defineGlobal
  | getGlobal k => exact hA.getGlobal
  | setGlobal k => exact hA.setGlobal hreach
  | getLocal slot =>
      refine (hA.reads (List.mem_singleton_self _) rfl (Nat.le_refl _)).bind ?_
      rintro v _ ⟨rfl, hv⟩
      exact hA.completes_push (hv rfl) rfl rfl
  | setLocal slot =>
      refine (hA.gives_peek rfl (Nat.le_refl _) hreach).bind ?_
      rintro v _ ⟨rfl, hv⟩
      refine hA.completes_of_gives
        (hA.writes (fun _ => List.mem_singleton_self _) (Nat.le_refl _) hv) rfl ?_
      rintro _ rfl -
      rfl
  | increment slot c => exact hA.increment
  | getProperty k =>
      rcases htake hreach with ⟨n, rfl⟩
      exact hA.getProperty
  | setProperty k =>
      rcases htake hreach with ⟨n, rfl⟩
      exact hA.setProperty
  | newArray k =>
      rcases htake hreach with ⟨n, rfl⟩
      refine (hA.gives_popMany rfl rfl (Nat.le_refl _)).bind ?_
      rintro items _ ⟨rfl, hitems⟩
      refine Gives.bind (hA.gives_newArray (g := fun _ => items) hitems) ?_
      rintro v _ ⟨h', rfl, hv⟩
      exact hA.completes_push hv rfl (by simp; lia)
  | newTable k =>
      rcases htake hreach with ⟨n, rfl⟩
      refine (hA.gives_popMany rfl rfl (Nat.le_refl _)).bind ?_
      rintro items _ ⟨rfl, hitems⟩
      exact hA.completes_perform (g := fun h => h.tableOf items.toList) rfl (Nat.le_refl _) rfl
        Heap.acts_tableOf (fun v hv => hitems v (Array.mem_def.mpr hv)) rfl (by simp; lia)
  | jump offset => exact hA.forward (fun _ => rfl) rfl rfl
  | jumpIfFalse offset | jumpIfTrue offset =>
      have hone : 0 < start := hreach
      refine (hA.gives_topIsFalsy (p := ⟨h, start, false⟩) rfl (Nat.le_refl _) hone).bind ?_
      rintro falsy _ rfl
      split
      · exact hA.forward (fun _ => rfl) rfl rfl
      · exact hA.completes_pure rfl rfl
  | loop offset => exact hA.back rfl rfl
  | forBegin slot vars offset => exact hA.beginIteration
  | forNext slot vars offset => exact hA.continueIteration
  | call count =>
      rcases htake hreach with ⟨n, rfl⟩
      exact hA.call
  | ret => exact hA.leaves rfl rfl rfl
  | throw =>
      rcases htake hreach with ⟨n, rfl⟩
      refine (hA.gives_pop rfl rfl (Nat.le_refl _)).bind ?_
      rintro v _ ⟨rfl, hv⟩
      exact fun m m' hm => .error (hA.thrown hm rfl (Nat.le_refl _) rfl hv)
  | print =>
      rcases htake hreach with ⟨n, rfl⟩
      exact hA.output (fun v h => h.render v) rfl rfl rfl
  | echo =>
      rcases htake hreach with ⟨n, rfl⟩
      exact hA.output (fun v h => h.render v ++ "\n") rfl rfl rfl
  | use =>
      rcases htake hreach with ⟨n, rfl⟩
      exact hA.use

end Pieces

end Covers

end Account
end StackScript
