import StackScript.Proofs.Heap.Seclusion
import StackScript.Proofs.Machine.Reachable

/-!
# An array that one place on the stack names

A machine may hide an array: nothing names it but one place on the stack.  An instruction that does
not look at that place leaves the array as it is, and nothing else comes to name it: instructions
name only what they find on the stack, in globals, in constants and in collections, and what they
make new.
-/

namespace StackScript

/-! ## The host -/

/-- A function of the host that reaches only what it is given in its arguments, what collections
hold, and what it makes itself. -/
structure Native.Contained (native : Native) : Prop where
  secludes : forall (h : Heap) args hidden, h.Hides hidden ->
    (forall v, v ∈ args -> v.Among (h.Known hidden)) -> h.Secludes hidden (native h args).2
  answers : forall (h : Heap) args hidden v, h.Hides hidden ->
    (forall v, v ∈ args -> v.Among (h.Known hidden)) ->
    (native h args).1 = .ok v ∨ (native h args).1 = .error v ->
      v.Among ((native h args).2.Known hidden)

def Machine.Contained (m : Machine) : Prop :=
  forall native, native ∈ m.natives -> Native.Contained native

/-- Constants are texts and functions. -/
theorem Function.Compiled.constant_among {f : Function} (hf : f.Compiled) (known : Nat -> Prop) :
    forall v, v ∈ f.code.constants -> v.Among known := by
  have hmade {functions : Nat -> Prop} {v : Value} (hv : v.Made functions) : v.Among known := by
    rintro id rfl
    exact False.elim hv
  rcases hf with ⟨base, name, source, p, hp, hmem⟩
  rcases compile_fits hp with ⟨s, hfits, rfl⟩
  intro v hv
  rcases Script.of_mem_program hmem with ⟨j, d, hj, rfl⟩ | rfl
  · exact hmade (assemble_constants_made (hfits.definitions j d hj) v hv)
  · exact hmade (assemble_constants_made hfits.body v hv)

/-! ## The array -/

/-- An array that is hidden, with its elements, and the place on the stack that names it. -/
structure Reserve where
  /-- How many values there are up to the place; zero when nothing is hidden. -/
  above : Nat
  id : Option Nat
  items : Array Value

/-- The array has its elements, and nothing but its place names it. -/
structure Machine.Reserves (m : Machine) (r : Reserve) : Prop where
  heap : m.heap.Hides r.id
  items : forall id, r.id = some id -> m.heap.items id = r.items
  globals : Table.Among (m.heap.Known r.id) m.globals
  stack : forall (j : Nat) v, j + 1 ≠ r.above -> m.stack[j]? = some v ->
    v.Among (m.heap.Known r.id)
  compiled : forall f, f ∈ m.heap.functions -> f.Compiled
  lawful : m.Lawful
  contained : m.Contained

theorem Machine.Reserves.withHeap {m : Machine} {r : Reserve} {h : Heap} (hm : m.Reserves r)
    (hh : m.heap.Secludes r.id h) (hfunctions : m.heap.Compiles h) :
    Machine.Reserves { m with heap := h } r where
  heap := hh.hides
  items := fun id hid => (hh.items id hid).trans (hm.items id hid)
  globals := hm.globals.mono (Heap.Known.mono hh.made)
  stack := fun j v hj hv => (hm.stack j v hj hv).mono (Heap.Known.mono hh.made)
  compiled := hfunctions.compiled hm.compiled
  lawful := hm.lawful
  contained := hm.contained

/-! ## Instructions -/

namespace Reserve

/-- A machine that is carrying out an instruction, with so many values above the place. -/
structure During (r : Reserve) (natives : Array Native) (files : Files) (frames : List Frame)
    (p : Stage) (m : Machine) : Prop where
  reserves : m.Reserves r
  natives : m.natives = natives
  files : m.files = files
  heap : m.heap = p.heap
  frames : m.frames = frames
  room : r.above + p.height <= m.stack.size

/-- A machine that hides the array throughout an instruction and does not bring it up. -/
def account (r : Reserve) (natives : Array Native) (files : Files) (frames : List Frame) :
    Account where
  natives := natives
  files := files
  Good := fun h v => v.Among (h.Known r.id)
  At := fun p m m' => m = m' ∧ r.During natives files frames p m
  Ends := fun m _ => m.Reserves r
  Fails := fun e m _ => m.Reserves r ∧ e.toValue.Among (m.heap.Known r.id)

open Exec Account

section During

variable {r : Reserve} {natives : Array Native} {files : Files} {frames rest : List Frame}
variable {f : Frame} {p : Stage} {m : Machine} {h : Heap} {s : Array Value} {v : Value} {n : Nat}

theorem During.stack (hm : r.During natives files frames p m) {j : Nat} (hj : j + 1 ≠ r.above)
    (hv : m.stack[j]? = some v) : v.Among (p.heap.Known r.id) := by
  rw [← hm.heap]
  exact hm.reserves.stack j v hj hv

theorem During.getD (hm : r.During natives files frames p m) {j : Nat} (hj : j + 1 ≠ r.above) :
    (m.stack.getD j .none).Among (p.heap.Known r.id) := by
  rw [Array.getD_eq_getD_getElem?]
  cases hv : m.stack[j]? with
  | none => simp [Value.Among]
  | some v => exact hm.stack hj hv

theorem During.withStack (hm : r.During natives files frames p m) (hn : r.above + n <= s.size)
    (hs : forall (j : Nat) v, j + 1 ≠ r.above -> s[j]? = some v -> v.Among (p.heap.Known r.id)) :
    r.During natives files frames { p with height := n } { m with stack := s } where
  reserves :=
    { hm.reserves with
      stack := by
        intro j v hj hv
        show v.Among (m.heap.Known r.id)
        rw [hm.heap]
        exact hs j v hj hv }
  natives := hm.natives
  files := hm.files
  heap := hm.heap
  frames := hm.frames
  room := hn

theorem During.withHeap (hm : r.During natives files frames p m) (hh : p.heap.Secludes r.id h)
    (hfunctions : p.heap.Compiles h) :
    r.During natives files frames { p with heap := h } { m with heap := h } where
  reserves := hm.reserves.withHeap (hm.heap ▸ hh) (hm.heap ▸ hfunctions)
  natives := hm.natives
  files := hm.files
  heap := rfl
  frames := hm.frames
  room := hm.room

theorem During.hides (hm : r.During natives files frames p m) : p.heap.Hides r.id := by
  rw [← hm.heap]
  exact hm.reserves.heap

theorem During.globals (hm : r.During natives files frames p m) :
    Table.Among (p.heap.Known r.id) m.globals := by
  rw [← hm.heap]
  exact hm.reserves.globals

theorem among_toValue {known : Nat -> Prop} {fault : Fault} :
    (Raised.fault fault).toValue.Among known := by
  simp [Raised.toValue, Fault.value, Value.Among]

theorem During.fails (hm : r.During natives files frames p m) (fault : Fault) :
    (r.account natives files frames).Fails (.fault fault) m m :=
  ⟨hm.reserves, among_toValue⟩

theorem gives_getLocal (hf : frames = f :: rest) (slot : Nat) :
    (r.account natives files frames).Gives p
      (fun v q => q = p ∧ (f.base + slot + 1 ≠ r.above -> v.Among (p.heap.Known r.id)))
      (getLocal slot) := by
  rintro m _ ⟨rfl, hm⟩
  have hf1 := hm.frames.trans hf
  cases hv : m.stack[f.base + slot]? with
  | some v =>
      rw [getLocal_apply hf1 hv]
      exact .ok ⟨p, ⟨rfl, fun hslot => hm.stack hslot hv⟩, rfl, hm⟩
  | none =>
      rw [getLocal_outside hf1 hv]
      exact .error (hm.fails _)

theorem gives_setLocal (hf : frames = f :: rest) {slot : Nat} (hv : v.Among (p.heap.Known r.id)) :
    (r.account natives files frames).Gives p (fun _ q => q = { p with wrote := true })
      (setLocal slot v) := by
  rintro m _ ⟨rfl, hm⟩
  have hf1 := hm.frames.trans hf
  by_cases hlt : f.base + slot < m.stack.size
  · have hset := hm.withStack (n := p.height) (s := m.stack.setIfInBounds (f.base + slot) v)
      (by rw [Array.size_setIfInBounds]; exact hm.room) fun j w hj hw => by
        rw [Array.getElem?_setIfInBounds] at hw
        split at hw
        · cases hw
          exact hv
        · exact hm.stack hj hw
    rw [setLocal_apply hf1 hlt]
    exact .ok ⟨_, rfl, rfl, { hset with }⟩
  · rw [setLocal_outside hf1 hlt]
    exact .error (hm.fails _)

theorem gives_constant (hf : frames = f :: rest) (k : Nat) :
    (r.account natives files frames).Gives p
      (fun v q => q = p ∧ v.Among (p.heap.Known r.id)) (constant k) := by
  rintro m _ ⟨rfl, hm⟩
  have hf1 := hm.frames.trans hf
  cases hv : (m.heap.function f.function).code.constants[k]? with
  | some v =>
      rw [constant_apply hf1 hv]
      refine .ok ⟨p, ⟨rfl, ?_⟩, rfl, hm⟩
      have hmem := Array.mem_of_getElem? hv
      rw [Heap.function, Array.getD_eq_getD_getElem?] at hmem
      cases hfunction : m.heap.functions[f.function]? with
      | none =>
          rw [hfunction] at hmem
          simp at hmem
      | some function =>
          rw [hfunction] at hmem
          have hcompiled := hm.reserves.compiled _ (Array.mem_of_getElem? hfunction)
          exact hcompiled.constant_among _ v hmem
  | none =>
      rw [constant_outside hf1 hv]
      exact .error (hm.fails _)

theorem completes_jumpBack (hf : frames = f :: rest) {offset : Nat} :
    (r.account natives files frames).Completes p (jumpBack offset) := by
  rintro m _ ⟨rfl, hm⟩
  have hf1 := hm.frames.trans hf
  by_cases hle : offset <= f.ip
  · rw [jumpBack_apply hf1 hle]
    exact .ok { hm.reserves with }
  · rw [jumpBack_outside hf1 hle]
    exact .error (hm.fails _)

theorem completes_enter {id count : Nat} :
    (r.account natives files frames).Completes p (enter id count) := by
  rintro m _ ⟨rfl, hm⟩
  by_cases harity : (m.heap.function id).arity = count
  · by_cases hfull : Full m
    · rw [enter_full harity hfull]
      exact .error (hm.fails _)
    · rw [enter_apply harity hfull]
      exact .ok { hm.reserves with }
  · rw [enter_wrongArity harity]
    exact .error (hm.fails _)

/-- What a call leaves on the stack is known, and so is what it gives back. -/
theorem completes_leave (hf : frames = f :: rest) (hheight : 0 < p.height) :
    (r.account natives files frames).Completes p leave := by
  rintro m _ ⟨rfl, hm⟩
  have hf1 := hm.frames.trans hf
  have hroom := hm.room
  have hpos : 0 < m.stack.size := by lia
  rcases Array.exists_push_of_size_pos hpos with ⟨s, v, hs⟩
  have hsize : m.stack.size = s.size + 1 := by rw [hs, Array.size_push]
  have hbelow (j : Nat) (w : Value) (hj : j + 1 ≠ r.above) (hw : (s.take f.base)[j]? = some w) :
      w.Among (m.heap.Known r.id) := by
    rw [Array.take_eq_extract, Array.getElem?_extract, Nat.zero_add] at hw
    split at hw
    · rename_i hlt
      apply hm.reserves.stack j w hj
      rw [hs, Array.getElem?_push_lt (by lia), ← hw, Array.getElem?_eq_getElem (by lia)]
    · cases hw
  cases rest with
  | nil =>
      rw [leave_last hs hf1]
      exact .ok { hm.reserves with stack := hbelow }
  | cons g outer =>
      rw [leave_apply hs hf1]
      refine .ok { hm.reserves with stack := fun j w hj hw => ?_ }
      rw [Array.getElem?_push] at hw
      split at hw
      · cases hw
        exact hm.reserves.stack s.size v (by lia) (by simp [hs])
      · exact hbelow j w hj hw

end During

/-- An instruction that reaches only what lies above the place, and that does not fetch what lies
there, leaves the array where it is. -/
theorem covers {r : Reserve} {natives : Array Native} {files : Files} {rest : List Frame}
    {f : Frame} {i : Instr} (hslot : forall s, i = .getLocal s -> f.base + s + 1 ≠ r.above) :
    (r.account natives files (f :: rest)).Covers i i.reach where
  heap := by
    rintro p m _ ⟨rfl, hm⟩
    exact ⟨hm.heap, hm.heap⟩
  stack := by
    rintro p m _ ⟨rfl, -⟩
    rfl
  globals := by
    rintro p m _ ⟨rfl, -⟩
    exact fun _ => rfl
  natives := by
    rintro p m _ ⟨rfl, hm⟩
    exact ⟨hm.natives, hm.natives⟩
  files := by
    rintro p m _ ⟨rfl, hm⟩
    exact ⟨hm.files, hm.files⟩
  candidates := by
    rintro p m _ target ⟨rfl, -⟩
    rfl
  plain := fun _ _ hv => hv.among
  operand := by
    rintro p m _ d ⟨rfl, hm⟩ - hd hsize
    have hroom := hm.room
    exact hm.getD (by lia)
  global := by
    rintro p m _ x v ⟨rfl, hm⟩ hv
    exact hm.globals x v hv
  item := by
    rintro p m _ object keys key value index ⟨rfl, hm⟩ hitem
    exact hm.hides.iteration hitem
  fault := by
    rintro p m _ fault ⟨rfl, hm⟩ - - - -
    exact hm.fails _
  thrown := by
    rintro p m _ v ⟨rfl, hm⟩ - - - hv
    refine ⟨hm.reserves, ?_⟩
    rw [hm.heap]
    exact hv
  short := by
    rintro p m _ ⟨rfl, hm⟩ - - -
    exact hm.fails _
  pushes := by
    rintro p m _ v ⟨rfl, hm⟩ hv
    have hroom := hm.room
    refine ⟨rfl, hm.withStack (by rw [Array.size_push]; lia) fun j w hj hw => ?_⟩
    rw [Array.getElem?_push] at hw
    split at hw
    · cases hw
      exact hv
    · exact hm.stack hj hw
  takes := by
    rintro p m _ n k ⟨rfl, hm⟩ hheight - - hk
    have hroom := hm.room
    refine ⟨rfl, hm.withStack ?_ fun j w hj hw => ?_⟩
    · simp only [Array.take_eq_extract, Array.size_extract]
      lia
    · rw [Array.take_eq_extract, Array.getElem?_extract, Nat.zero_add] at hw
      split at hw
      · exact hm.stack hj hw
      · cases hw
  reads := by
    intro p slot _ _ _ m m' hm
    have hread := gives_getLocal rfl slot m m' hm
    generalize getLocal slot m = x at hread ⊢
    generalize getLocal slot m' = x' at hread ⊢
    cases hread with
    | ok hq =>
        rcases hq with ⟨q, ⟨rfl, hv⟩, hat⟩
        exact .ok ⟨q, ⟨rfl, fun hi => hv (hslot slot hi)⟩, hat⟩
    | error hfails => exact .error hfails
  writes := fun _ _ hv => gives_setLocal rfl hv
  constants := fun _ _ _ => gives_constant rfl _
  names := by
    rintro p k - - -
    refine gives_name (gives_constant rfl k) (fun _ _ h => h.1) ?_
    rintro fault m _ ⟨rfl, hm⟩
    exact hm.fails _
  defines := by
    rintro p m _ x v ⟨rfl, hm⟩ hv
    refine ⟨rfl, { hm with reserves := { hm.reserves with globals := ?_ } }⟩
    show Table.Among (m.heap.Known r.id) (m.globals.insert x v)
    rw [hm.heap]
    exact hm.globals.insert x hv
  outputs := by
    rintro p m _ s ⟨rfl, hm⟩
    exact ⟨rfl, { hm with reserves := { hm.reserves with } }⟩
  acts := by
    rintro p m _ writes args v h ⟨rfl, hm⟩ hacts hargs
    have hwithheld := hacts.withholds hm.hides hargs
    exact ⟨hwithheld.1, rfl, hm.withHeap hwithheld.2 (.of_eq hacts.leaves)⟩
  host := by
    rintro p m _ count native args ⟨rfl, hm⟩ - hnative hargs
    rw [← hm.natives] at hnative
    have hcontained := hm.reserves.contained native hnative
    have hlawful := hm.reserves.lawful native hnative
    refine ⟨fun v hv => hcontained.answers p.heap args r.id v hm.hides hargs hv, rfl, ?_⟩
    exact hm.withHeap (hcontained.secludes p.heap args r.id hm.hides hargs)
      (hlawful.compiles p.heap args)
  compiled := by
    rintro p m _ path source id h ⟨rfl, hm⟩ - - hc
    refine ⟨fun _ => nofun, rfl, ?_⟩
    exact hm.withHeap (Heap.secludes_of_compile hm.hides hc).1 ⟨_, Heap.grown_of_compile hc⟩
  next := by
    rintro p m _ ⟨rfl, hm⟩ - -
    exact hm.reserves
  forward := by
    rintro p offset - - - m _ ⟨rfl, hm⟩
    rw [jumpForward_apply hm.frames]
    exact .ok { hm.reserves with }
  back := fun _ _ => completes_jumpBack rfl
  enters := fun _ _ _ _ _ => completes_enter
  leaves := by
    rintro p rfl - hheight
    exact completes_leave rfl (hheight ▸ Nat.one_pos)

end Reserve
end StackScript
