import StackScript.Proofs.Machine.Soundness

/-!
# What an instruction leaves alone

An instruction takes so many values from the top of the stack and puts so many in their place.
Whether it is completed or fails, what lies below them stays, except that a completed instruction
may write into the slots of its own call.  Its call goes on at one of the successors of the
instruction, unless it opens another call or returns.  The functions on the heap stay as they are,
and only compiled ones are added.
-/

namespace StackScript

/-! ## Functions on the heap -/

/-- A script that is compiled: the number of the first of its functions, its name and its text. -/
structure Load where
  base : Nat
  script : Option String
  source : String

/-- Functions with the functions of scripts behind them that were compiled one after another. -/
inductive Grown (functions : Array Function) : List Load -> Array Function -> Prop where
  | refl : Grown functions [] functions
  | script {log : List Load} {more : Array Function} {name : Option String} {source : String}
      {p : Program} : Grown functions log more -> compile more.size name source = .ok p ->
        Grown functions (log ++ [⟨more.size, name, source⟩]) (more ++ p.all)

theorem Grown.trans {a b c : Array Function} {log log' : List Load} (hab : Grown a log b)
    (hbc : Grown b log' c) : Grown a (log ++ log') c := by
  induction hbc with
  | refl =>
      rw [List.append_nil]
      exact hab
  | script _ hp ih =>
      rw [← List.append_assoc]
      exact ih.script hp

namespace Heap

/-- A heap whose only new functions are those of compiled scripts. -/
def Compiles (h h' : Heap) : Prop :=
  exists log, Grown h.functions log h'.functions

section Compiles

variable {h h' h'' : Heap}

theorem Compiles.refl (h : Heap) : h.Compiles h :=
  ⟨[], .refl⟩

theorem Compiles.of_eq (heq : h'.functions = h.functions) : h.Compiles h' := by
  refine ⟨[], ?_⟩
  rw [heq]
  exact .refl

theorem Compiles.trans (hh : h.Compiles h') (hh' : h'.Compiles h'') : h.Compiles h'' := by
  rcases hh with ⟨log, hlog⟩
  rcases hh' with ⟨log', hlog'⟩
  exact ⟨log ++ log', hlog.trans hlog'⟩

theorem grown_of_compile {name : Option String} {source : String} {id : Nat}
    (hc : h.compile name source = .ok (id, h')) :
    Grown h.functions [⟨h.functions.size, name, source⟩] h'.functions := by
  rcases Heap.compile_eq_ok hc with ⟨p, hp, -, rfl⟩
  exact Grown.refl.script hp

theorem Compiles.extends (hh : h.Compiles h') : h.Extends h' := by
  rcases hh with ⟨log, hlog⟩
  generalize hb : h'.functions = b at hlog
  induction hlog generalizing h' with
  | refl => exact Heap.extends_of_eq hb
  | script hmore _ ih =>
      rename_i log more name source p hp
      have hold : h.Extends { functions := more } := ih rfl
      refine hold.trans ⟨?_, ?_⟩
      · rw [hb]
        simp
      · intro id hid
        have hid' : id < more.size := hid
        simp [Heap.function, hb, Array.getD_eq_getD_getElem?, Array.getElem?_append_left hid']

end Compiles

def Leaves (h : Heap) : Answer -> Prop
  | .ok _ h' | .error _ h' => h'.functions = h.functions

section Leaves

variable {h : Heap}

theorem Acts.leaves {writes : Bool} {args : List Value} {x : Answer}
    (hx : h.Acts writes args x) : h.Leaves x := by
  cases hx <;> rfl

theorem leaves_answer {x : Except Fault Value} : h.Leaves (answer h x) := by
  cases x <;> rfl

theorem leaves_setProperty {object value : Value} {key : String} :
    h.Leaves (h.setProperty object key value) := by
  have hacts : h.Acts true [object, value] (h.setProperty object key value) :=
    acts_setProperty List.mem_cons_self
  exact hacts.leaves

end Leaves
end Heap

/-! ## The host -/

/-- A function of the host that brings in no code of its own: the functions that it adds are
those of scripts that it compiles, and it stores or gives back only these and what it was given
in its arguments or found in collections. -/
structure Native.Lawful (native : Native) : Prop where
  compiles : forall (h : Heap) args, h.Compiles (native h args).2
  stores : forall (h : Heap) args id, (native h args).2.Holds id ->
    h.Holds id ∨ Value.function id ∈ args ∨
      (h.functions.size <= id ∧ id < (native h args).2.functions.size)
  answers : forall (h : Heap) args id,
    (native h args).1 = .ok (.function id) ∨ (native h args).1 = .error (.function id) ->
      h.Holds id ∨ Value.function id ∈ args ∨
        (h.functions.size <= id ∧ id < (native h args).2.functions.size)

/-- A function of the host that leaves the functions on the heap as they are. -/
def Native.Steady (native : Native) : Prop :=
  forall (h : Heap) args, h.Extends (native h args).2

theorem Native.Lawful.steady {native : Native} (hn : native.Lawful) : native.Steady :=
  fun h args => (hn.compiles h args).extends

/-- A function of the host that gives back a function which no compiler has made. -/
def Native.giving (f : Function) : Native := fun h _ =>
  (.ok (.function h.functions.size), { h with functions := h.functions.push f })

namespace Machine

def Lawful (m : Machine) : Prop :=
  forall native, native ∈ m.natives -> Native.Lawful native

def Steady (m : Machine) : Prop :=
  forall native, native ∈ m.natives -> Native.Steady native

theorem Lawful.steady {m : Machine} (hm : m.Lawful) : m.Steady :=
  fun native hnative => (hm native hnative).steady

/-! ## Machines during and after an instruction -/

/-- The scripts that an instruction compiles: one that it has read to import it, or those that a
function of the host compiles. -/
inductive Brings (m : Machine) : Instr -> Load -> Prop where
  | imported {base : Nat} {path source : String} :
      m.files.read path = .ok source -> Brings m .use ⟨base, some path, source⟩
  | host {count : Nat} {l : Load} : Brings m (.call count) l

/-- The machine when so much of an instruction has been carried out. -/
structure Kept (i : Instr) (m m' : Machine) : Prop where
  limits : m'.limits = m.limits
  files : m'.files = m.files
  natives : m'.natives = m.natives
  functions : i.opens = false -> m'.heap.functions = m.heap.functions
  extends_ : m.Steady -> m.heap.Extends m'.heap
  brings : m.Lawful -> exists log,
    Grown m.heap.functions log m'.heap.functions ∧ forall l, l ∈ log -> m.Brings i l

/-- The machine after an instruction that has written nowhere below what it takes. -/
structure Spares (i : Instr) (m m' : Machine) : Prop extends m.Kept i m' where
  frames : m'.frames = m.frames
  size : m.stack.size <= m'.stack.size + i.taken
  stack : forall j, j + i.taken < m.stack.size -> m'.stack[j]? = m.stack[j]?

/-- Where a call goes on that is behind an instruction. -/
structure Leads (i : Instr) (ip t : Nat) : Prop where
  successor : forall n, ip = n + 1 -> t ∈ i.successors n
  moves : t ≠ ip -> i.moves = true

/-- The machine after an instruction with which its call `f` goes on. -/
structure Stays (i : Instr) (f : Frame) (rest : List Frame) (m m' : Machine) : Prop
    extends m.Kept i m' where
  frames : exists t, Leads i f.ip t ∧ m'.frames = { f with ip := t } :: rest
  size : m'.stack.size + i.taken = m.stack.size + i.given
  stack : forall j, j + i.taken < m.stack.size -> (forall s, s ∈ i.writes -> j ≠ f.base + s) ->
    m'.stack[j]? = m.stack[j]?

/-- The machine after a call has been opened over what the instruction takes. -/
structure Opens (i : Instr) (m m' : Machine) : Prop extends m.Kept i m' where
  frames : exists id, m'.frames = ⟨id, 0, m.stack.size - i.taken⟩ :: m.frames
  stack : forall j, j + i.taken < m.stack.size -> m'.stack[j]? = m.stack[j]?

/-- The calls when an instruction of the call `f` is completed: it goes on, has opened a call, or is
over. -/
inductive Moved (i : Instr) (f : Frame) (rest : List Frame) : List Frame -> Prop where
  | stays {t : Nat} : Leads i f.ip t -> Moved i f rest ({ f with ip := t } :: rest)
  | opens {id base : Nat} : i.opens = true -> Moved i f rest (⟨id, 0, base⟩ :: f :: rest)
  | returns : i = .ret -> Moved i f rest rest

/-- How an instruction of the call `f` is completed. -/
inductive Completes (i : Instr) (f : Frame) (rest : List Frame) (m m' : Machine) : Prop where
  | stays : m.Stays i f rest m' -> Completes i f rest m m'
  | opens : i.opens = true -> m.Opens i m' -> Completes i f rest m m'
  | returns : i = .ret -> Completes i f rest m m'

/-- The call `f` has what an instruction may still miss when it has begun to write. -/
structure Seats (m : Machine) (i : Instr) (f : Frame) : Prop where
  regular : i.Regular
  slots : forall s, s ∈ i.writes -> f.base + s < m.stack.size
  back : forall offset, i.backOffset? = some offset -> offset <= f.ip

/-- A machine that is carrying out an instruction of the call `f` that began as `m`. -/
structure Course (i : Instr) (f : Frame) (m : Machine) (p : Stage) (m' : Machine) : Prop
    extends m.Kept i m' where
  heap : m'.heap = p.heap
  frames : m'.frames = m.frames
  size : m'.stack.size + i.reach = m.stack.size + p.height
  low : i.reach <= p.height + i.taken
  stack : i.Regular -> forall j, j + i.taken < m.stack.size ->
    (p.wrote = true -> forall s, s ∈ i.writes -> j ≠ f.base + s) -> m'.stack[j]? = m.stack[j]?

section Kept

variable {i : Instr} {m m' : Machine} {h : Heap}

theorem Kept.refl (i : Instr) (m : Machine) : m.Kept i m where
  limits := rfl
  files := rfl
  natives := rfl
  functions := fun _ => rfl
  extends_ := fun _ => .refl _
  brings := fun _ => ⟨[], .refl, nofun⟩

theorem Kept.compiles (hm : m.Kept i m') (hl : m.Lawful) : m.heap.Compiles m'.heap := by
  rcases hm.brings hl with ⟨log, hlog, -⟩
  exact ⟨log, hlog⟩

theorem Kept.withFunctions (hm : m.Kept i m') (heq : h.functions = m'.heap.functions) :
    m.Kept i { m' with heap := h } where
  limits := hm.limits
  files := hm.files
  natives := hm.natives
  functions := fun hi => heq.trans (hm.functions hi)
  extends_ := fun hs => (hm.extends_ hs).trans (Heap.extends_of_eq heq)
  brings := by
    intro hl
    rcases hm.brings hl with ⟨log, hlog, hfrom⟩
    refine ⟨log, ?_, hfrom⟩
    show Grown m.heap.functions log h.functions
    rw [heq]
    exact hlog

/-- Functions may be added by an instruction that opens calls. -/
theorem Kept.withHeap (hm : m.Kept i m') (hi : i.opens = true)
    (hext : m.Steady -> m'.heap.Extends h)
    (hlog : m.Lawful -> exists log,
      Grown m'.heap.functions log h.functions ∧ forall l, l ∈ log -> m.Brings i l) :
    m.Kept i { m' with heap := h } where
  limits := hm.limits
  files := hm.files
  natives := hm.natives
  functions := by
    intro hno
    rw [hi] at hno
    cases hno
  extends_ := fun hs => (hm.extends_ hs).trans (hext hs)
  brings := by
    intro hl
    rcases hm.brings hl with ⟨log, hgrown, hfrom⟩
    rcases hlog hl with ⟨more, hmore, hfrom'⟩
    refine ⟨log ++ more, hgrown.trans hmore, fun l hmem => ?_⟩
    rcases List.mem_append.mp hmem with hmem | hmem
    · exact hfrom l hmem
    · exact hfrom' l hmem

end Kept

/-- What is said of a machine that began an instruction as `m`. -/
def account (m : Machine) (i : Instr) (f : Frame) (rest : List Frame) : Account where
  natives := m.natives
  files := m.files
  Good := fun _ _ => True
  At := fun p m1 m2 => m1 = m2 ∧ m.Course i f p m1
  Ends := fun m1 _ =>
    m.Kept i m1 ∧ Moved i f rest m1.frames ∧ (i.Regular -> m.Completes i f rest m1)
  Fails := fun _ m1 _ =>
    m.Kept i m1 ∧ m1.frames = m.frames ∧ (m.Seats i f -> m.Spares i m1)

namespace Course

variable {i : Instr} {f : Frame} {rest : List Frame} {m m' : Machine} {p : Stage}
variable {j : Nat}

theorem start (i : Instr) (f : Frame) (m : Machine) : m.Course i f ⟨m.heap, i.reach, false⟩ m where
  toKept := .refl i m
  heap := rfl
  frames := rfl
  size := rfl
  low := Nat.le_add_right _ _
  stack := fun _ _ _ _ => rfl

/-- What lies below what the instruction takes is on the stack. -/
theorem lt_size (hm : m.Course i f p m') (hj : j + i.taken < m.stack.size) : j < m'.stack.size := by
  have hsize := hm.size
  have hlow := hm.low
  lia

/-- An instruction that has written nothing may fail. -/
theorem fails (hm : m.Course i f p m') (hwrote : p.wrote = false) (e : Raised) :
    (m.account i f rest).Fails e m' m' := by
  refine ⟨hm.toKept, hm.frames, fun hseats => ⟨hm.toKept, hm.frames, ?_, fun j hj => ?_⟩⟩
  · have hsize := hm.size
    have hlow := hm.low
    lia
  · refine hm.stack hseats.regular j hj ?_
    rw [hwrote]
    nofun

/-- An instruction does not fail where it has what it misses. -/
theorem fails_unseated (hm : m.Course i f p m') (e : Raised) (hseats : ¬ m.Seats i f) :
    (m.account i f rest).Fails e m' m' :=
  ⟨hm.toKept, hm.frames, fun hs => absurd hs hseats⟩

/-- The instruction is completed when its call stands where it goes on. -/
theorem ends {t : Nat} (hm : m.Course i f p m') (ht : Leads i f.ip t)
    (hend : i.Regular -> p.height + i.taken = i.reach + i.given) :
    (m.account i f rest).Ends { m' with frames := { f with ip := t } :: rest }
      { m' with frames := { f with ip := t } :: rest } := by
  have hkept : m.Kept i { m' with frames := { f with ip := t } :: rest } := { hm.toKept with }
  refine ⟨hkept, .stays ht, fun hi => .stays ⟨hkept, ⟨t, ht, rfl⟩, ?_, fun j hj hne => ?_⟩⟩
  · have hsize := hm.size
    have hheight := hend hi
    show m'.stack.size + i.taken = _
    lia
  · exact hm.stack hi j hj fun _ => hne

end Course

/-! ## Any instruction -/

section Covers

open Exec Account

variable {i : Instr} {f : Frame} {rest : List Frame} {m : Machine} {p : Stage}

theorem gives_getLocal (hf : m.frames = f :: rest) (hwrote : p.wrote = false) (slot : Nat) :
    (m.account i f rest).Gives p (fun _ q => q = p ∧ (i = .getLocal slot -> True))
      (getLocal slot) := by
  rintro m1 _ ⟨rfl, hm⟩
  have hf1 := hm.frames.trans hf
  cases hv : m1.stack[f.base + slot]? with
  | some v =>
      rw [getLocal_apply hf1 hv]
      exact .ok ⟨p, ⟨rfl, fun _ => trivial⟩, rfl, hm⟩
  | none =>
      rw [getLocal_outside hf1 hv]
      exact .error (hm.fails hwrote _)

theorem gives_setLocal {slot : Nat} {v : Value} (hf : m.frames = f :: rest)
    (hslot : i.Regular -> slot ∈ i.writes) (hheight : i.reach <= p.height) :
    (m.account i f rest).Gives p (fun _ q => q = { p with wrote := true }) (setLocal slot v) := by
  rintro m1 _ ⟨rfl, hm⟩
  have hf1 := hm.frames.trans hf
  have hsize := hm.size
  by_cases hlt : f.base + slot < m1.stack.size
  · rw [setLocal_apply hf1 hlt]
    refine .ok ⟨_, rfl, rfl, { hm with size := ?_, stack := fun hi j hj hne => ?_ }⟩
    · show (m1.stack.setIfInBounds (f.base + slot) v).size + i.reach = _
      rw [Array.size_setIfInBounds]
      exact hsize
    · have hslots := hne rfl
      show (m1.stack.setIfInBounds (f.base + slot) v)[j]? = _
      rw [Array.getElem?_setIfInBounds_ne (hslots slot (hslot hi)).symm]
      exact hm.stack hi j hj fun _ => hslots
  · rw [setLocal_outside hf1 hlt]
    refine .error (hm.fails_unseated _ fun hseats => hlt ?_)
    have hslots := hseats.slots slot (hslot hseats.regular)
    lia

theorem gives_constant (hf : m.frames = f :: rest) (hwrote : p.wrote = false) (k : Nat) :
    (m.account i f rest).Gives p (fun _ q => q = p ∧ True) (constant k) := by
  rintro m1 _ ⟨rfl, hm⟩
  have hf1 := hm.frames.trans hf
  cases hv : (m1.heap.function f.function).code.constants[k]? with
  | some v =>
      rw [constant_apply hf1 hv]
      exact .ok ⟨p, ⟨rfl, trivial⟩, rfl, hm⟩
  | none =>
      rw [constant_outside hf1 hv]
      exact .error (hm.fails hwrote _)

theorem completes_jumpBack {offset : Nat} (hf : m.frames = f :: rest)
    (hi : i.backOffset? = some offset) (hend : p.height + i.taken = i.reach + i.given) :
    (m.account i f rest).Completes p (jumpBack offset) := by
  rintro m1 _ ⟨rfl, hm⟩
  have hf1 := hm.frames.trans hf
  by_cases hle : offset <= f.ip
  · rw [jumpBack_apply hf1 hle]
    refine .ok (hm.ends ⟨fun n hn => ?_, fun _ => ?_⟩ fun _ => hend)
    · rw [hn] at hle ⊢
      exact Instr.mem_successors_of_backOffset? hi hle
    · exact Instr.moves_of_backOffset? hi
  · rw [jumpBack_outside hf1 hle]
    exact .error (hm.fails_unseated _ fun hseats => hle (hseats.back offset hi))

theorem completes_enter {id count : Nat} (hf : m.frames = f :: rest) (hopens : i.opens = true)
    (htaken : i.taken = count + 1) (hwrote : p.wrote = false) (hheight : p.height = i.reach) :
    (m.account i f rest).Completes p (enter id count) := by
  rintro m1 _ ⟨rfl, hm⟩
  by_cases harity : (m1.heap.function id).arity = count
  · by_cases hfull : Full m1
    · rw [enter_full harity hfull]
      exact .error (hm.fails hwrote _)
    · rw [enter_apply harity hfull]
      have hsize := hm.size
      have hkept : m.Kept i { m1 with
          frames := ⟨id, 0, m1.stack.size - count - 1⟩ :: m1.frames } := { hm.toKept with }
      refine .ok ⟨hkept, ?_, fun hi => .opens hopens ⟨hkept, ⟨id, ?_⟩, fun j hj => ?_⟩⟩
      · show Moved i f rest (_ :: m1.frames)
        rw [hm.frames, hf]
        exact .opens hopens
      · show _ :: m1.frames = _
        rw [hm.frames, htaken, Nat.sub_sub, show m1.stack.size = m.stack.size by lia]
      · refine hm.stack hi j hj ?_
        rw [hwrote]
        nofun
  · rw [enter_wrongArity harity]
    exact .error (hm.fails hwrote _)

theorem completes_leave (hf : m.frames = f :: rest) (hi : i = .ret) (hwrote : p.wrote = false) :
    (m.account i f rest).Completes p leave := by
  rintro m1 _ ⟨rfl, hm⟩
  have hf1 := hm.frames.trans hf
  rcases Nat.eq_zero_or_pos m1.stack.size with hzero | hpos
  · have hpop : leave m1 = .error (.fault .stackUnderflow) m1 :=
      bind_error (pop_empty (Array.eq_empty_of_size_eq_zero hzero))
    rw [hpop]
    exact .error (hm.fails hwrote _)
  · rcases Array.exists_push_of_size_pos hpos with ⟨s, v, hs⟩
    cases rest with
    | nil =>
        rw [leave_last hs hf1]
        exact .ok ⟨{ hm.toKept with }, .returns hi, fun _ => .returns hi⟩
    | cons g outer =>
        rw [leave_apply hs hf1]
        exact .ok ⟨{ hm.toKept with }, .returns hi, fun _ => .returns hi⟩

/-- Whatever the instruction consists of keeps to its course. -/
theorem covers (i : Instr) (hf : m.frames = f :: rest) :
    (m.account i f rest).Covers i i.reach where
  heap := by
    rintro p m1 _ ⟨rfl, hm⟩
    exact ⟨hm.heap, hm.heap⟩
  stack := by
    rintro p m1 _ ⟨rfl, -⟩
    rfl
  globals := by
    rintro p m1 _ ⟨rfl, -⟩
    exact fun _ => rfl
  natives := by
    rintro p m1 _ ⟨rfl, hm⟩
    exact ⟨hm.natives, hm.natives⟩
  files := by
    rintro p m1 _ ⟨rfl, hm⟩
    exact ⟨hm.files, hm.files⟩
  candidates := by
    rintro p m1 _ target ⟨rfl, -⟩
    rfl
  plain := fun _ _ _ => trivial
  operand := fun _ _ _ _ => trivial
  global := fun _ _ => trivial
  item := fun _ _ => ⟨trivial, trivial⟩
  fault := by
    rintro p m1 _ fault ⟨rfl, hm⟩ hwrote - - -
    exact hm.fails hwrote _
  thrown := by
    rintro p m1 _ v ⟨rfl, hm⟩ hwrote - - -
    exact hm.fails hwrote _
  short := by
    rintro p m1 _ ⟨rfl, hm⟩ hwrote - -
    exact hm.fails hwrote _
  pushes := by
    rintro p m1 _ v ⟨rfl, hm⟩ -
    have hsize := hm.size
    refine ⟨rfl, { hm with size := ?_, low := Nat.le_trans hm.low (by simp), stack := ?_ }⟩
    · show (m1.stack.push v).size + i.reach = m.stack.size + (p.height + 1)
      rw [Array.size_push]
      lia
    · intro hi j hj hne
      have hlt := hm.lt_size hj
      show (m1.stack.push v)[j]? = _
      rw [Array.getElem?_push_lt hlt, ← hm.stack hi j hj hne, Array.getElem?_eq_getElem hlt]
  takes := by
    rintro p m1 _ n k ⟨rfl, hm⟩ hheight - hn hk
    have hsize := hm.size
    have htaken : (m1.stack.take (m1.stack.size - k)).size + i.reach = m.stack.size + n := by
      simp only [Array.take_eq_extract, Array.size_extract]
      lia
    refine ⟨rfl, { hm with size := htaken, low := hn, stack := fun hi j hj hne => ?_ }⟩
    show (m1.stack.take (m1.stack.size - k))[j]? = _
    rw [← hm.stack hi j hj hne]
    simp only [Array.take_eq_extract, Array.getElem?_extract]
    rw [if_pos (by lia), Nat.zero_add]
  reads := fun _ hwrote _ => gives_getLocal hf hwrote _
  writes := fun hslot hheight _ => gives_setLocal hf hslot hheight
  constants := fun _ hwrote _ => gives_constant hf hwrote _
  names := by
    rintro p k - hwrote -
    refine gives_name (gives_constant hf hwrote k) (fun _ _ h => h.1) ?_
    rintro fault m1 _ ⟨rfl, hm⟩
    exact hm.fails hwrote _
  defines := by
    rintro p m1 _ x v ⟨rfl, hm⟩ -
    exact ⟨rfl, { hm with }⟩
  outputs := by
    rintro p m1 _ s ⟨rfl, hm⟩
    exact ⟨rfl, { hm with }⟩
  acts := by
    rintro p m1 _ writes args v h ⟨rfl, hm⟩ hacts -
    have hfunctions : h.functions = m1.heap.functions := by
      rw [hm.heap]
      exact hacts.leaves
    exact ⟨trivial, rfl, { hm with toKept := hm.toKept.withFunctions hfunctions, heap := rfl }⟩
  host := by
    rintro p m1 _ count native args ⟨rfl, hm⟩ rfl hnative -
    refine ⟨fun _ _ => trivial, rfl, { hm with toKept := ?_, heap := rfl }⟩
    refine hm.toKept.withHeap rfl (fun hs => ?_) fun hl => ?_
    · rw [hm.heap]
      exact hs native hnative p.heap args
    · rcases (hl native hnative).compiles p.heap args with ⟨log, hlog⟩
      rw [hm.heap]
      exact ⟨log, hlog, fun _ _ => .host⟩
  compiled := by
    rintro p m1 _ path source id h ⟨rfl, hm⟩ rfl hread hc
    have hlog := Heap.grown_of_compile hc
    rw [← hm.heap] at hlog
    refine ⟨trivial, rfl, { hm with toKept := ?_, heap := rfl }⟩
    refine hm.toKept.withHeap rfl (fun _ => ?_) fun _ => ⟨_, hlog, ?_⟩
    · exact Heap.Compiles.extends ⟨_, hlog⟩
    · intro l hl
      rw [List.mem_singleton.mp hl]
      exact .imported hread
  next := by
    rintro p m1 _ ⟨rfl, hm⟩ hi hend
    have hleads : Leads i f.ip f.ip := by
      refine ⟨fun n hn => ?_, fun hne => absurd rfl hne⟩
      rw [hn]
      exact Instr.mem_successors_of_continues hi
    have hends : (m.account i f rest).Ends _ _ := hm.ends hleads hend
    rwa [← hm.frames.trans hf] at hends
  forward := by
    rintro p offset hi - hend m1 _ ⟨rfl, hm⟩
    rw [jumpForward_apply (hm.frames.trans hf)]
    refine .ok (hm.ends ⟨fun n hn => ?_, fun _ => ?_⟩ fun _ => hend)
    · rw [hn]
      exact Instr.mem_successors_of_jumpTarget? (hi n)
    · exact Instr.moves_of_jumpTarget? (hi f.ip)
  back := fun hi hend => completes_jumpBack hf hi hend
  enters := fun hopens htaken hwrote hheight _ => completes_enter hf hopens htaken hwrote hheight
  leaves := fun hi hwrote _ => completes_leave hf hi hwrote

end Covers
end Machine

namespace Exec

section Steps

variable {i : Instr} {f : Frame} {rest : List Frame} {m m' : Machine} {e : Raised}

theorem of_step_ok (hf : m.frames = f :: rest) (hok : step i m = .ok () m') :
    m.Kept i m' ∧ Machine.Moved i f rest m'.frames ∧
      (i.Regular -> m.Completes i f rest m') :=
  ((Machine.covers i hf).step (Nat.le_refl _)).of_ok ⟨rfl, .start i f m⟩ hok

theorem of_step_error (hf : m.frames = f :: rest) (herror : step i m = .error e m') :
    m.Kept i m' ∧ m'.frames = m.frames ∧ (m.Seats i f -> m.Spares i m') :=
  ((Machine.covers i hf).step (Nat.le_refl _)).of_error ⟨rfl, .start i f m⟩ herror

/-- An instruction that neither opens a call nor returns leaves its call at a successor. -/
theorem stays_of_step (hf : m.frames = f :: rest) (hi : i.Regular) (hopens : i.opens = false)
    (hret : i ≠ .ret) (hok : step i m = .ok () m') : m.Stays i f rest m' := by
  cases (of_step_ok hf hok).2.2 hi with
  | stays h => exact h
  | opens h =>
      rw [hopens] at h
      cases h
  | returns h => exact absurd h hret

/-- An instruction that neither jumps nor opens or closes a call leaves the calls as they are. -/
theorem frames_of_step (hmoves : i.moves = false) (hopens : i.opens = false)
    (hf : m.frames = f :: rest) (hok : step i m = .ok () m') : m'.frames = m.frames := by
  have hret : i ≠ .ret := by
    rintro rfl
    cases hmoves
  have hstays := stays_of_step hf (Instr.regular_of_moves hmoves) hopens hret hok
  rcases hstays.frames with ⟨t, ht, hframes⟩
  have hsame : t = f.ip := by
    by_contra hne
    have hmoves' := ht.moves hne
    rw [hmoves] at hmoves'
    cases hmoves'
  rw [hframes, hsame, hf]

end Steps

end Exec

/-- An instruction of checked code has all that it needs. -/
theorem Stepping.seats {c : Context} {m : Machine} {f : Frame} {rest : List Frame}
    {height : Nat -> Nat} {i : Instr} (hs : Stepping c f rest height i)
    (hsize : m.stack.size = f.base + height f.ip) : m.Seats i { f with ip := f.ip + 1 } where
  regular := hs.fits.loopVars
  slots := by
    intro s hslot
    have hlt := hs.fits.slots s (Instr.slots_of_writes hslot)
    show f.base + s < _
    lia
  back := fun offset hi => hs.fits.back offset hi

theorem take_eq_take {s t : Array Value} {n : Nat} (h : forall j, j < n -> t[j]? = s[j]?) :
    t.take n = s.take n := by
  refine Array.ext_getElem? fun j => ?_
  simp only [Array.take_eq_extract, Array.getElem?_extract, Nat.zero_add, Nat.sub_zero]
  grind

end StackScript
