import StackScript.Proofs.Machine.Effects

/-!
# Two copies of the same code

A call does not see which function it runs or where in it, as long as it goes through the same
instructions with the same constants.  So two machines that differ in nothing but one call, which
runs a copy of the same code, do the same until that code is left, whatever is called from it.
-/

namespace StackScript

/-! ## Copies of code -/

/-- An instruction that does not leave a piece of code with so many instructions behind it, unless
it raises something. -/
def Instr.StaysWithin (room : Nat) : Instr -> Prop
  | jump offset | jumpIfFalse offset | jumpIfTrue offset => offset <= room
  | loop _ | forBegin _ _ _ | forNext _ _ _ | ret => False
  | _ => True

/-- No instruction leaves the code but for the one behind it, unless it raises something. -/
def Instr.Tight (code : List Instr) : Prop :=
  forall (j : Nat) (i : Instr), code[j]? = some i -> i.StaysWithin (code.length - (j + 1))

namespace Instr

variable {i : Instr} {code code' : List Instr} {room room' : Nat}

theorem staysWithin_of_moves (hi : i.moves = false) : i.StaysWithin room := by
  cases i <;> first
    | (cases hi; done)
    | trivial

theorem StaysWithin.mono (h : i.StaysWithin room) (hroom : room <= room') :
    i.StaysWithin room' := by
  cases i <;> first
    | exact Nat.le_trans h hroom
    | exact h

theorem tight_nil : Tight [] := by
  simp [Tight]

theorem Tight.cons (h : Tight code) (hi : i.StaysWithin code.length) : Tight (i :: code) := by
  intro j i' hi'
  cases j with
  | zero =>
      cases hi'
      exact hi
  | succ j =>
      rw [List.getElem?_cons_succ] at hi'
      rw [List.length_cons, Nat.add_sub_add_right]
      exact h j i' hi'

theorem Tight.append (h : Tight code) (h' : Tight code') : Tight (code ++ code') := by
  intro j i hi
  rw [List.getElem?_append] at hi
  rw [List.length_append]
  split at hi
  · exact (h j i hi).mono (by lia)
  · exact (h' _ i hi).mono (by lia)

theorem tight_singleton (hi : i.moves = false) : Tight [i] :=
  tight_nil.cons (staysWithin_of_moves hi)

end Instr

/-- A function on the heap, and the place on the stack of a call of it. -/
structure Seat where
  id : Nat
  base : Nat
  function : Function

namespace Seat

def frame (S : Seat) (ip : Nat) : Frame :=
  ⟨S.id, ip, S.base⟩

structure On (S : Seat) (h : Heap) : Prop where
  known : S.id < h.functions.size
  function : h.function S.id = S.function

def Has (S : Seat) (ip : Nat) (code : List Instr) : Prop :=
  forall (j : Nat) (i : Instr), code[j]? = some i -> S.function.code.instrs[ip + j]? = some i

theorem On.extends {S : Seat} {h h' : Heap} (hs : S.On h) (hext : h.Extends h') : S.On h' :=
  ⟨Nat.lt_of_lt_of_le hs.known hext.size, (hext.function S.id hs.known).trans hs.function⟩

end Seat

/-- Calls at the same place on the stack, of functions of one script with the same constants. -/
structure Seat.Like (S S' : Seat) : Prop where
  base : S.base = S'.base
  constants : S.function.code.constants = S'.function.code.constants
  script : S.function.script = S'.function.script

theorem Seat.Like.refl (S : Seat) : S.Like S :=
  ⟨rfl, rfl, rfl⟩

theorem Seat.Like.symm {S S' : Seat} (h : S.Like S') : S'.Like S :=
  ⟨h.base.symm, h.constants.symm, h.script.symm⟩

/-- A piece of code that stands in two functions that are alike, or twice in one. -/
structure Twins where
  code : List Instr
  one : Seat
  other : Seat
  oneStart : Nat
  otherStart : Nat
  like : one.Like other
  oneHas : one.Has oneStart code
  otherHas : other.Has otherStart code
  tight : Instr.Tight code

namespace Twins

/-- The frames of a call of the one function that has come so far in the code. -/
def ones (T : Twins) (above : List Frame) (n : Nat) (outer : List Frame) : List Frame :=
  above ++ T.one.frame (T.oneStart + n) :: outer

def others (T : Twins) (above : List Frame) (n : Nat) (outer : List Frame) : List Frame :=
  above ++ T.other.frame (T.otherStart + n) :: outer

structure On (T : Twins) (h : Heap) : Prop where
  one : T.one.On h
  other : T.other.On h

theorem On.extends {T : Twins} {h h' : Heap} (ht : T.On h) (hext : h.Extends h') : T.On h' :=
  ⟨ht.one.extends hext, ht.other.extends hext⟩

end Twins

/-- Machines that differ in one call over `outer`, which has the one function in the first machine
and the other in the second.  It stands in front of an instruction of the code with at least so many
instructions behind it, and if it is `deep` there are calls above it. -/
inductive Machine.Twin (T : Twins) (outer : List Frame) (deep : Bool) (room : Nat) :
    Machine -> Machine -> Prop where
  | mk (m : Machine) (above : List Frame) (n : Nat) : T.On m.heap -> m.Steady ->
      (deep = true -> above ≠ []) -> n + room <= T.code.length ->
      Twin T outer deep room { m with frames := T.ones above n outer }
        { m with frames := T.others above n outer }

namespace Machine.Twin

variable {T : Twins} {outer : List Frame} {deep : Bool} {room : Nat} {m m' : Machine}

theorem lower (h : m.Twin T outer deep room m') : m.Twin T outer false 0 m' := by
  rcases h with ⟨m, above, n, hon, hsteady, -, hn⟩
  exact .mk m above n hon hsteady nofun (by lia)

theorem heap_eq (h : m.Twin T outer deep room m') : m'.heap = m.heap := by
  cases h
  rfl

theorem stack_eq (h : m.Twin T outer deep room m') : m'.stack = m.stack := by
  cases h
  rfl

/-- The calls in progress have the same place on the stack and the same constants. -/
theorem tops (h : m.Twin T outer deep room m') :
    exists f rest f' rest', m.frames = f :: rest ∧ m'.frames = f' :: rest' ∧ f'.base = f.base ∧
      (m'.heap.function f'.function).code.constants =
        (m.heap.function f.function).code.constants := by
  rcases h with ⟨m, above, n, hon, -, -, -⟩
  cases above with
  | nil =>
      refine ⟨_, _, _, _, rfl, rfl, T.like.base.symm, ?_⟩
      show (m.heap.function T.other.id).code.constants = (m.heap.function T.one.id).code.constants
      rw [hon.one.function, hon.other.function, T.like.constants]
  | cons a above => exact ⟨_, _, _, _, rfl, rfl, rfl, rfl⟩

theorem withStack (h : m.Twin T outer deep room m') (s : Array Value) :
    Twin T outer deep room { m with stack := s } { m' with stack := s } := by
  rcases h with ⟨m, above, n, hon, hsteady, hdeep, hn⟩
  exact .mk { m with stack := s } above n hon hsteady hdeep hn

theorem withHeap {heap : Heap} (h : m.Twin T outer deep room m') (hext : m.heap.Extends heap) :
    Twin T outer deep room { m with heap := heap } { m' with heap := heap } := by
  rcases h with ⟨m, above, n, hon, hsteady, hdeep, hn⟩
  exact .mk { m with heap := heap } above n (hon.extends hext) hsteady hdeep hn

end Machine.Twin

/-! ## Instructions -/

/-- What is said of machines that differ in one call. -/
def Twins.account (T : Twins) (outer : List Frame) (deep : Bool) (room : Nat)
    (natives : Array Native) (files : Files) : Account where
  natives := natives
  files := files
  Good := fun _ _ => True
  At := fun p m m' =>
    m.Twin T outer deep room m' ∧ m.heap = p.heap ∧ m.natives = natives ∧ m.files = files
  Ends := fun m m' => m.Twin T outer false 0 m'
  Fails := fun _ m m' => m.Twin T outer false 0 m'

namespace Twins

open Exec Account

variable {T : Twins} {outer : List Frame} {deep : Bool} {room : Nat} {natives : Array Native}
variable {files : Files} {p : Stage} {i : Instr}

theorem gives_getLocal (slot : Nat) :
    (T.account outer deep room natives files).Gives p
      (fun _ q => q = p ∧ (i = .getLocal slot -> True)) (getLocal slot) := by
  rintro m m' ⟨htwin, hrest⟩
  rcases htwin.tops with ⟨f, rest, f', rest', hf, hf', hbase, -⟩
  have hslot : m'.stack[f'.base + slot]? = m.stack[f.base + slot]? := by
    rw [htwin.stack_eq, hbase]
  cases hv : m.stack[f.base + slot]? with
  | some v =>
      rw [getLocal_apply hf hv, getLocal_apply hf' (hslot.trans hv)]
      exact .ok ⟨p, ⟨rfl, fun _ => trivial⟩, htwin, hrest⟩
  | none =>
      rw [getLocal_outside hf hv, getLocal_outside hf' (hslot.trans hv)]
      exact .error htwin.lower

theorem gives_setLocal (slot : Nat) (v : Value) :
    (T.account outer deep room natives files).Gives p (fun _ q => q = { p with wrote := true })
      (setLocal slot v) := by
  rintro m m' ⟨htwin, hrest⟩
  rcases htwin.tops with ⟨f, rest, f', rest', hf, hf', hbase, -⟩
  have hstack := htwin.stack_eq
  by_cases hlt : f.base + slot < m.stack.size
  · rw [setLocal_apply hf hlt, setLocal_apply hf' (by rwa [hbase, hstack]), hbase, hstack]
    exact .ok ⟨_, rfl, htwin.withStack _, hrest⟩
  · rw [setLocal_outside hf hlt, setLocal_outside hf' (by rwa [hbase, hstack])]
    exact .error htwin.lower

/-- Both functions have the same constants. -/
theorem gives_constant (k : Nat) :
    (T.account outer deep room natives files).Gives p (fun _ q => q = p ∧ True) (constant k) := by
  rintro m m' ⟨htwin, hrest⟩
  rcases htwin.tops with ⟨f, rest, f', rest', hf, hf', -, hconstants⟩
  cases hv : (m.heap.function f.function).code.constants[k]? with
  | some v =>
      rw [constant_apply hf hv, constant_apply hf' (hconstants.symm ▸ hv)]
      exact .ok ⟨p, ⟨rfl, trivial⟩, htwin, hrest⟩
  | none =>
      rw [constant_outside hf hv, constant_outside hf' (hconstants.symm ▸ hv)]
      exact .error htwin.lower

/-- A forward jump stays within the code, or it is made by a call above. -/
theorem completes_jumpForward {offset : Nat} (hoffset : deep = true ∨ offset <= room) :
    (T.account outer deep room natives files).Completes p (jumpForward offset) := by
  rintro _ _ ⟨⟨m, above, n, hon, hsteady, hdeep, hn⟩, -⟩
  cases above with
  | nil =>
      have hlt : n + offset <= T.code.length := by
        rcases hoffset with htrue | hle
        · exact absurd rfl (hdeep htrue)
        · lia
      rw [jumpForward_apply rfl, jumpForward_apply rfl]
      have htwin : Machine.Twin T outer false 0 _ _ :=
        .mk m [] (n + offset) hon hsteady nofun hlt
      unfold ones others at htwin
      rw [← Nat.add_assoc, ← Nat.add_assoc] at htwin
      exact .ok htwin
  | cons a above =>
      rw [jumpForward_apply rfl, jumpForward_apply rfl]
      exact .ok (.mk m ({ a with ip := a.ip + offset } :: above) n hon hsteady nofun (by lia))

/-- Calls above may go anywhere. -/
theorem completes_jumpBack {offset : Nat} (hdeep : deep = true) :
    (T.account outer deep room natives files).Completes p (jumpBack offset) := by
  rintro _ _ ⟨⟨m, above, n, hon, hsteady, habove, hn⟩, -⟩
  cases above with
  | nil => exact absurd rfl (habove hdeep)
  | cons a above =>
      by_cases hle : offset <= a.ip
      · rw [jumpBack_apply rfl hle, jumpBack_apply rfl hle]
        exact .ok (.mk m ({ a with ip := a.ip - offset } :: above) n hon hsteady nofun (by lia))
      · rw [jumpBack_outside rfl hle, jumpBack_outside rfl hle]
        exact .error (.mk m (a :: above) n hon hsteady nofun (by lia))

theorem completes_enter (id count : Nat) :
    (T.account outer deep room natives files).Completes p (enter id count) := by
  rintro _ _ ⟨⟨m, above, n, hon, hsteady, -, hn⟩, -⟩
  have hany (above : List Frame) : false = true -> above ≠ [] :=
    fun h => absurd h Bool.false_ne_true
  have htwin : Machine.Twin T outer false 0 _ _ :=
    .mk m above n hon hsteady (hany above) (by lia)
  have hfull (f : Frame) : Full { m with frames := above ++ f :: outer } ↔
      m.limits.frames <= above.length + (outer.length + 1) ∨
        m.limits.slots <= m.stack.size := by
    simp [Full]
  unfold ones others at htwin ⊢
  by_cases harity : (m.heap.function id).arity = count
  · by_cases hroom : m.limits.frames <= above.length + (outer.length + 1) ∨
        m.limits.slots <= m.stack.size
    · have hfails (f : Frame) : enter id count { m with frames := above ++ f :: outer } = _ :=
        enter_full harity ((hfull f).mpr hroom)
      rw [hfails, hfails]
      exact .error htwin
    · have hdone (f : Frame) : enter id count { m with frames := above ++ f :: outer } = _ :=
        enter_apply harity (mt (hfull f).mp hroom)
      rw [hdone, hdone]
      exact .ok (.mk m (⟨id, 0, m.stack.size - count - 1⟩ :: above) n hon hsteady (hany _)
        (by lia))
  · have hfails (f : Frame) : enter id count { m with frames := above ++ f :: outer } = _ :=
      enter_wrongArity harity
    rw [hfails, hfails]
    exact .error htwin

/-- Calls above return to each other or to the one that differs. -/
theorem completes_leave (hdeep : deep = true) :
    (T.account outer deep room natives files).Completes p leave := by
  rintro _ _ ⟨⟨m, above, n, hon, hsteady, habove, hn⟩, -⟩
  have hn0 : n + 0 <= T.code.length := by lia
  rcases Nat.eq_zero_or_pos m.stack.size with hzero | hpos
  · have hpop (frames : List Frame) : leave { m with frames := frames } = _ :=
      bind_error (pop_empty (Array.eq_empty_of_size_eq_zero hzero))
    rw [hpop, hpop]
    exact .error (.mk m above n hon hsteady nofun hn0)
  · rcases Array.exists_push_of_size_pos hpos with ⟨s, v, hs⟩
    rcases above with _ | ⟨a, _ | ⟨b, above⟩⟩
    · exact absurd rfl (habove hdeep)
    · have hleave (f : Frame) : leave { m with frames := a :: f :: outer } = _ :=
        leave_apply hs rfl
      unfold ones others
      rw [List.singleton_append, List.singleton_append, hleave, hleave]
      exact .ok (.mk { m with stack := (s.take a.base).push v } [] n hon hsteady nofun hn0)
    · have hleave (frames : List Frame) : leave { m with frames := a :: b :: frames } = _ :=
        leave_apply hs rfl
      unfold ones others
      rw [List.cons_append, List.cons_append, hleave, List.cons_append, List.cons_append, hleave]
      exact .ok (.mk { m with stack := (s.take a.base).push v } (b :: above) n hon hsteady nofun
        hn0)

/-- Both functions are in the same script. -/
theorem candidates_eq {m m' : Machine} (h : m.Twin T outer deep room m') (target : String) :
    m'.candidates target = m.candidates target := by
  rcases h with ⟨m, above, n, hon, -, -, -⟩
  have hparent : Machine.scriptParent? { m with frames := T.others above n outer } =
      Machine.scriptParent? { m with frames := T.ones above n outer } := by
    simp [Machine.scriptParent?, ones, others, Seat.frame, List.findSome?_append,
      List.findSome?_cons, hon.one.function, hon.other.function, T.like.script]
  simp only [Machine.candidates, hparent]

/-- Whatever instruction a call above is at, or one that stays within the code. -/
theorem covers (hi : deep = true ∨ i.StaysWithin room) :
    (T.account outer deep room natives files).Covers i i.reach where
  heap := by
    rintro p m m' ⟨htwin, hheap, -⟩
    exact ⟨hheap, htwin.heap_eq.trans hheap⟩
  stack := by
    rintro p m m' ⟨htwin, -⟩
    exact htwin.stack_eq
  globals := by
    rintro p _ _ ⟨⟨m, above, n, -⟩, -⟩
    exact fun _ => rfl
  natives := by
    rintro p _ _ ⟨⟨m, above, n, -⟩, -, hnatives, -⟩
    exact ⟨hnatives, hnatives⟩
  files := by
    rintro p _ _ ⟨⟨m, above, n, -⟩, -, -, hfiles⟩
    exact ⟨hfiles, hfiles⟩
  candidates := by
    rintro p m m' target ⟨htwin, -⟩
    exact candidates_eq htwin target
  plain := fun _ _ _ => trivial
  operand := fun _ _ _ _ => trivial
  global := fun _ _ => trivial
  item := fun _ _ => ⟨trivial, trivial⟩
  fault := fun hm _ _ _ _ => hm.1.lower
  thrown := fun hm _ _ _ _ => hm.1.lower
  short := fun hm _ _ _ => hm.1.lower
  pushes := by
    rintro p m m' v ⟨htwin, hrest⟩ -
    rw [htwin.stack_eq]
    exact ⟨htwin.withStack _, hrest⟩
  takes := by
    rintro p m m' n k ⟨htwin, hrest⟩ - - - -
    rw [htwin.stack_eq]
    exact ⟨htwin.withStack _, hrest⟩
  reads := fun _ _ _ => gives_getLocal _
  writes := fun _ _ _ => gives_setLocal _ _
  constants := fun _ _ _ => gives_constant _
  names := fun _ _ _ =>
    gives_name (gives_constant _) (fun _ _ h => h.1) fun _ _ _ hm => hm.1.lower
  defines := by
    rintro p _ _ x v ⟨⟨m, above, n, hon, hsteady, hdeep, hn⟩, hrest⟩ -
    exact ⟨.mk { m with globals := m.globals.insert x v } above n hon hsteady hdeep hn, hrest⟩
  outputs := by
    rintro p _ _ s ⟨⟨m, above, n, hon, hsteady, hdeep, hn⟩, hrest⟩
    exact ⟨.mk { m with output := m.output ++ s } above n hon hsteady hdeep hn, hrest⟩
  acts := by
    rintro p m m' writes args v h ⟨htwin, hheap, hrest⟩ hacts -
    have hext : m.heap.Extends h := by
      rw [hheap]
      exact Heap.extends_of_eq hacts.leaves
    exact ⟨trivial, htwin.withHeap hext, rfl, hrest⟩
  host := by
    rintro p m m' count native args ⟨htwin, hheap, hrest⟩ - hnative -
    refine ⟨fun _ _ => trivial, htwin.withHeap ?_, rfl, hrest⟩
    rcases htwin with ⟨m, above, n, hon, hsteady, hdeep, hn⟩
    rw [hheap]
    exact hsteady native (hrest.1 ▸ hnative) p.heap args
  compiled := by
    rintro p m m' path source id h ⟨htwin, hheap, hrest⟩ - - hc
    have hext : m.heap.Extends h := by
      rw [hheap]
      exact Heap.Compiles.extends ⟨_, Heap.grown_of_compile hc⟩
    exact ⟨trivial, htwin.withHeap hext, rfl, hrest⟩
  next := fun hm _ _ => hm.1.lower
  forward := by
    intro p offset hjump _ _
    refine completes_jumpForward (hi.imp_right fun hstays => ?_)
    have htarget := hjump 0
    cases i with
    | jump o | jumpIfFalse o | jumpIfTrue o =>
        have hsame : 0 + 1 + o = 0 + 1 + offset := Option.some.inj htarget
        have hle : o <= room := hstays
        lia
    | forBegin => exact hstays.elim
    | loop => exact hstays.elim
    | forNext => exact hstays.elim
    | _ => cases htarget
  back := by
    intro p offset hback _
    refine completes_jumpBack (hi.resolve_right fun hstays => ?_)
    cases i with
    | loop => exact hstays
    | forNext => exact hstays
    | _ => cases hback
  enters := fun _ _ _ _ _ => completes_enter _ _
  leaves := by
    intro p hret _ _
    subst hret
    exact completes_leave (hi.resolve_right fun hstays => hstays)

end Twins

namespace Exec

/-- The same result on machines that differ in one call. -/
inductive Same (T : Twins) (outer : List Frame) :
    EStateM.Result Raised Machine Unit -> EStateM.Result Raised Machine Unit -> Prop where
  | ok {m m' : Machine} : m.Twin T outer false 0 m' -> Same T outer (.ok () m) (.ok () m')
  | error (e : Raised) {m m' : Machine} : m.Twin T outer false 0 m' ->
      Same T outer (.error e m) (.error e m')

theorem step_same {T : Twins} {outer : List Frame} {deep : Bool} {room : Nat} {i : Instr}
    {m m' : Machine} (h : m.Twin T outer deep room m') (hi : deep = true ∨ i.StaysWithin room) :
    Same T outer (step i m) (step i m') := by
  have hsame := (Twins.covers hi).step (Nat.le_refl _) m m' ⟨h, rfl, rfl, rfl⟩
  generalize step i m = r at hsame
  generalize step i m' = r' at hsame
  cases hsame with
  | ok h => exact .ok h
  | error h => exact .error _ h

end Exec
end StackScript
