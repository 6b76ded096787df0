import StackScript.Machine.Run
import StackScript.Proofs.Machine.Clean

/-!
# Machines whose calls stand where they should

The innermost call stands at an instruction, with as many values above its base as the
static check gives that instruction.  Every other call stands behind the instruction
that opened the call above it, and has the height there once that call has left its
result.  A thrown value that finds a handler leaves the calls standing.
-/

namespace StackScript

/-! ## Calls -/

/-- The instructions that open a call. -/
def Instr.opens : Instr -> Bool
  | .call _ | .use => true
  | _ => false

/-- The innermost call, on a stack of so many values. -/
def Frame.Runs (h : Heap) (size : Nat) (f : Frame) : Prop :=
  exists height, (h.function f.function).Keeps height ∧
    f.ip < (h.function f.function).code.size ∧ f.base + height f.ip = size

/-- A call that waits for the call whose slot zero is at `top`. -/
def Frame.Waits (h : Heap) (top : Nat) (f : Frame) : Prop :=
  exists height i, (h.function f.function).Keeps height ∧ 0 < f.ip ∧
    (h.function f.function).code.instrs[f.ip - 1]? = some i ∧ i.opens = true ∧
    f.base + height f.ip = top + 1

/-- Calls that wait, the one on top for the call whose slot zero is at `top`. -/
def Waiting (h : Heap) : Nat -> List Frame -> Prop
  | _, [] => True
  | top, f :: rest => f.Waits h top ∧ Waiting h f.base rest

/-- Calls on a stack of so many values. -/
def Standing (h : Heap) (size : Nat) : List Frame -> Prop
  | [] => True
  | f :: rest => f.Runs h size ∧ Waiting h f.base rest

def Machine.Stands (m : Machine) : Prop :=
  Standing m.heap m.stack.size m.frames

/-! ## The host -/

def Heap.Holds (h : Heap) (id : Nat) : Prop :=
  (exists items, items ∈ h.arrays ∧ Value.function id ∈ items) ∨
    exists (t : Table) (key : String), t ∈ h.tables ∧ t[key]? = some (.function id)

/-- A function of the host that neither changes functions nor brings up any but those it was
given in its arguments or found in collections. -/
structure Native.Honest (native : Native) : Prop where
  keeps : forall (h : Heap) args, h.Extends (native h args).2
  stores : forall (h : Heap) args id, (native h args).2.Holds id ->
    h.Holds id ∨ Value.function id ∈ args
  returns : forall (h : Heap) args id, (native h args).1 = .ok (.function id) ->
    h.Holds id ∨ Value.function id ∈ args
  throws : forall (h : Heap) args id, (native h args).1 = .error (.function id) ->
    h.Holds id ∨ Value.function id ∈ args

/-- A function of the host that keeps what is clean clean. -/
structure Native.Tame (native : Native) : Prop where
  keeps : forall (h : Heap) args, h.Clean -> (forall v, v ∈ args -> v.Clean h) ->
    h.Extends (native h args).2 ∧ (native h args).2.Clean
  answers : forall (h : Heap) args v, h.Clean -> (forall w, w ∈ args -> w.Clean h) ->
    (native h args).1 = .ok v ∨ (native h args).1 = .error v -> v.Clean (native h args).2

/-! ## Safe machines -/

/-- Everything that a machine can call is good. -/
structure Machine.Clean (m : Machine) : Prop where
  heap : m.heap.Clean
  stack : forall v, v ∈ m.stack -> v.Clean m.heap
  globals : Table.Clean m.heap m.globals
  natives : forall native, native ∈ m.natives -> Native.Tame native

structure Machine.Safe (m : Machine) : Prop where
  clean : m.Clean
  frames : forall f, f ∈ m.frames -> m.heap.Good f.function
  stands : m.Stands

theorem Heap.Clean.good_of_holds {h : Heap} {id : Nat} (hh : h.Clean) (hid : h.Holds id) :
    h.Good id := by
  rcases hid with ⟨items, hitems, hv⟩ | ⟨t, key, ht, hv⟩
  · exact hh.arrays items hitems _ hv
  · exact hh.tables t ht key _ hv

theorem Value.clean_of_function {h : Heap} {v : Value}
    (hv : forall id, v = .function id -> h.Good id) : v.Clean h := by
  cases v with
  | function id => exact hv id rfl
  | _ => trivial

theorem Heap.clean_of_holds {h : Heap} (hid : forall id, h.Holds id -> h.Good id) : h.Clean := by
  constructor
  · intro items hitems v hv
    refine Value.clean_of_function ?_
    rintro id rfl
    exact hid id (Or.inl ⟨items, hitems, hv⟩)
  · intro t ht key v hv
    refine Value.clean_of_function ?_
    rintro id rfl
    exact hid id (Or.inr ⟨t, key, ht, hv⟩)

/-- Whatever function an honest host stores or gives back was good before. -/
theorem Native.Honest.tame {native : Native} (hn : native.Honest) : native.Tame := by
  have hgood {h : Heap} {args : Array Value} {id : Nat} (hh : h.Clean)
      (hargs : forall v, v ∈ args -> v.Clean h) (hid : h.Holds id ∨ Value.function id ∈ args) :
      (native h args).2.Good id := by
    refine Heap.Good.extends ?_ (hn.keeps h args)
    rcases hid with hid | hid
    · exact hh.good_of_holds hid
    · exact hargs _ hid
  constructor
  · intro h args hh hargs
    refine ⟨hn.keeps h args, Heap.clean_of_holds fun id hid => ?_⟩
    exact hgood hh hargs (hn.stores h args id hid)
  · intro h args v hh hargs hv
    refine Value.clean_of_function ?_
    rintro id rfl
    rcases hv with hv | hv
    · exact hgood hh hargs (hn.returns h args id hv)
    · exact hgood hh hargs (hn.throws h args id hv)

/-! ## Heights of calls -/

section Frames

variable {h h' : Heap} {f : Frame} {size top : Nat} {rest : List Frame}

theorem Function.Keeps.pos {g : Function} {height : Nat -> Nat} {ip : Nat}
    (hk : g.Keeps height) (hip : ip < g.code.size) : 0 < height ip := by
  have hi : g.code.instrs[ip]? = some g.code.instrs[ip] := Array.getElem?_eq_getElem hip
  exact Nat.lt_of_le_of_lt (Nat.zero_le _) (hk.instrs ip _ hi).operands

theorem Instr.taken_le_reach (i : Instr) : i.taken <= i.reach := by
  cases i <;> simp

theorem Instr.successors_of_opens {i : Instr} {ip : Nat} (hi : i.opens = true) :
    ip + 1 ∈ i.successors ip := by
  cases i <;> first
    | (cases hi; done)
    | simp [Instr.successors, Instr.continues]

theorem Instr.quiet_of_opens {i : Instr} (hi : i.opens = true) : i.quiet = false := by
  cases i <;> first
    | (cases hi; done)
    | rfl

theorem Instr.given_of_opens {i : Instr} (hi : i.opens = true) : i.given = 1 := by
  cases i <;> first
    | (cases hi; done)
    | rfl

/-- Behind the instruction that opened a call there is an instruction. -/
theorem Frame.Waits.lt_size (hf : f.Waits h top) : f.ip < (h.function f.function).code.size := by
  rcases hf with ⟨height, i, hk, hpos, hi, hopens, -⟩
  have hin := (hk.instrs _ i hi).inside _ (Instr.successors_of_opens hopens)
  rwa [Nat.sub_add_cancel hpos] at hin

theorem Frame.Waits.base_le (hf : f.Waits h top) : f.base <= top := by
  have hlt := hf.lt_size
  rcases hf with ⟨height, i, hk, hpos, hi, hopens, hheight⟩
  have hone := hk.pos hlt
  lia

/-- When its call returns, a call that waits runs. -/
theorem Frame.Waits.runs (hf : f.Waits h top) : f.Runs h (top + 1) := by
  have hlt := hf.lt_size
  rcases hf with ⟨height, i, hk, hpos, hi, hopens, hheight⟩
  exact ⟨height, hk, hlt, hheight⟩

theorem Frame.Waits.extends (hf : f.Waits h top) (hg : h.Good f.function) (hext : h.Extends h') :
    f.Waits h' top := by
  unfold Frame.Waits
  rw [hext.function_of_good hg]
  exact hf

/-- The bases of calls that wait go down. -/
theorem Waiting.base_le {g : Frame} (hw : Waiting h top rest) (hg : g ∈ rest) : g.base <= top := by
  induction rest generalizing top with
  | nil => cases hg
  | cons f rest ih =>
      rcases hw with ⟨hf, hrest⟩
      rcases List.mem_cons.mp hg with rfl | hg
      · exact hf.base_le
      · exact Nat.le_trans (ih hrest hg) hf.base_le

/-- A call that waits stands behind the instruction that opened the call above it. -/
theorem Waiting.opened {g : Frame} (hw : Waiting h top rest) (hg : g ∈ rest) :
    0 < g.ip ∧ ((h.function g.function).code.instrs[g.ip - 1]? = some .use ∨
      exists n, (h.function g.function).code.instrs[g.ip - 1]? = some (.call n)) := by
  induction rest generalizing top with
  | nil => cases hg
  | cons f rest ih =>
      rcases hw with ⟨⟨height, i, -, hpos, hi, hopens, -⟩, hrest⟩
      rcases List.mem_cons.mp hg with rfl | hg
      · refine ⟨hpos, ?_⟩
        cases i with
        | use => exact Or.inl hi
        | call n => exact Or.inr ⟨n, hi⟩
        | _ => cases hopens
      · exact ih hrest hg

theorem Waiting.extends (hw : Waiting h top rest) (hg : forall f, f ∈ rest -> h.Good f.function)
    (hext : h.Extends h') : Waiting h' top rest := by
  induction rest generalizing top with
  | nil => trivial
  | cons f rest ih =>
      rcases hw with ⟨hf, hrest⟩
      exact ⟨hf.extends (hg f (by simp)) hext, ih hrest fun g hg' => hg g (by simp [hg'])⟩

end Frames

/-! ## Handlers -/

section Handlers

variable {h : Heap} {f : Frame} {r : TryRange} {top size ip : Nat} {rest : List Frame}

theorem Function.mem_of_findRangeFrom? {g : Function} {fuel : Nat} {cursor : Option Nat}
    (hr : g.findRangeFrom? ip fuel cursor = some r) : r ∈ g.ranges ∧ r.covers ip = true := by
  induction fuel generalizing cursor with
  | zero => cases hr
  | succ fuel ih =>
      cases cursor with
      | none => cases hr
      | some i =>
          simp only [Function.findRangeFrom?] at hr
          split at hr
          · cases hr
          · rename_i r' hr'
            split at hr
            · rename_i hcovers
              cases hr
              exact ⟨Array.mem_of_getElem? hr', hcovers⟩
            · exact ih hr

theorem Function.mem_of_findRange? {g : Function} (hr : g.findRange? ip = some r) :
    r ∈ g.ranges ∧ r.covers ip = true :=
  Function.mem_of_findRangeFrom? hr

/-- A handler finds the locals of its `try` and the thrown value. -/
theorem runs_handler {height : Nat -> Nat} (hk : (h.function f.function).Keeps height)
    (hr : r ∈ (h.function f.function).ranges) :
    ({ f with ip := r.stop } : Frame).Runs h (f.base + r.depth + 1) := by
  have hfits := hk.ranges r hr
  refine ⟨height, hk, hfits.inside, ?_⟩
  show f.base + height r.stop = _
  rw [hfits.handler, Nat.add_assoc]

/-- The instruction that opened a call has left the locals of every `try` around it. -/
theorem Frame.Waits.handler (hf : f.Waits h top) (hr : r ∈ (h.function f.function).ranges)
    (hcovers : r.covers (f.ip - 1) = true) :
    f.base + r.depth <= top ∧ ({ f with ip := r.stop } : Frame).Runs h (f.base + r.depth + 1) := by
  rcases hf with ⟨height, i, hk, hpos, hi, hopens, hheight⟩
  refine ⟨?_, runs_handler hk hr⟩
  have hkept := (hk.ranges r hr).kept _ i hcovers hi (Instr.quiet_of_opens hopens)
  have hflow := (hk.instrs _ i hi).flow _ (Instr.successors_of_opens hopens)
  rw [Nat.sub_add_cancel hpos, Instr.heightAfter, Instr.given_of_opens hopens] at hflow
  lia

/-- The locals of a `try` that a waiting call stands in lie below the call above it. -/
theorem Waiting.depth_le {g : Frame} (hw : Waiting h top rest) (hg : g ∈ rest)
    (hr : r ∈ (h.function g.function).ranges) (hcovers : r.covers (g.ip - 1) = true) :
    g.base + r.depth <= top := by
  induction rest generalizing top with
  | nil => cases hg
  | cons f rest ih =>
      rcases hw with ⟨hf, hrest⟩
      rcases List.mem_cons.mp hg with rfl | hg
      · exact (hf.handler hr hcovers).1
      · exact Nat.le_trans (ih hrest hg) hf.base_le

theorem Machine.handler?_of_some (hr : (h.function f.function).findRange? (f.ip - 1) = some r) :
    Machine.handler? h (f :: rest) = some (f, r, rest) := by
  simp only [Machine.handler?, hr]

theorem Machine.handler?_of_none (hr : (h.function f.function).findRange? (f.ip - 1) = none) :
    Machine.handler? h (f :: rest) = Machine.handler? h rest := by
  simp only [Machine.handler?, hr]

theorem Machine.of_handler?_some {g : Frame} {frames outer : List Frame}
    (hh : handler? h frames = some (g, r, outer)) :
    exists above, frames = above ++ g :: outer ∧
      (forall k, k ∈ above -> (h.function k.function).findRange? (k.ip - 1) = none) ∧
        (h.function g.function).findRange? (g.ip - 1) = some r := by
  induction frames with
  | nil => cases hh
  | cons f rest ih =>
      cases hr : (h.function f.function).findRange? (f.ip - 1) with
      | some r' =>
          rw [handler?_of_some hr] at hh
          cases hh
          exact ⟨[], rfl, nofun, hr⟩
      | none =>
          rw [handler?_of_none hr] at hh
          rcases ih hh with ⟨above, hframes, habove, hfound⟩
          refine ⟨f :: above, by rw [hframes]; rfl, ?_, hfound⟩
          intro k hk
          rcases List.mem_cons.mp hk with rfl | hk
          · exact hr
          · exact habove k hk

theorem Machine.of_handler?_none {k : Frame} {frames : List Frame}
    (hh : handler? h frames = none) (hk : k ∈ frames) :
    (h.function k.function).findRange? (k.ip - 1) = none := by
  induction frames with
  | nil => cases hk
  | cons f rest ih =>
      cases hr : (h.function f.function).findRange? (f.ip - 1) with
      | some r' =>
          rw [handler?_of_some hr] at hh
          cases hh
      | none =>
          rw [handler?_of_none hr] at hh
          rcases List.mem_cons.mp hk with rfl | hk
          · exact hr
          · exact ih hh hk

/-- A handler of a call that waits can go on where it is. -/
theorem Waiting.handler? {g : Frame} {outer : List Frame} (hw : Waiting h top rest)
    (htop : top <= size) (hh : Machine.handler? h rest = some (g, r, outer)) :
    g ∈ rest ∧ (forall f, f ∈ outer -> f ∈ rest) ∧ g.base + r.depth <= size ∧
      Standing h (g.base + r.depth + 1) ({ g with ip := r.stop } :: outer) := by
  induction rest generalizing top with
  | nil => cases hh
  | cons f rest ih =>
      rcases hw with ⟨hf, hrest⟩
      simp only [Machine.handler?] at hh
      split at hh
      · rename_i r' hr'
        cases hh
        rcases Function.mem_of_findRange? hr' with ⟨hmem, hcovers⟩
        rcases hf.handler hmem hcovers with ⟨hle, hruns⟩
        refine ⟨by simp, fun f hf' => by simp [hf'], Nat.le_trans hle htop, hruns, hrest⟩
      · rcases ih hrest (Nat.le_trans hf.base_le htop) hh with ⟨hg, hout, hle, hstand⟩
        exact ⟨by simp [hg], fun f' hf' => by simp [hout f' hf'], hle, hstand⟩

end Handlers

end StackScript
