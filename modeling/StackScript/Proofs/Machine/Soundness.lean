import Mathlib.Tactic.IntervalCases
import StackScript.Proofs.Machine.Safety

/-!
# Runs of checked code

From what one instruction keeps follows what a whole run keeps.  A machine starts a safe
run if the functions it can reach pass the static stack check, its calls stand where the
check says and the functions of the host are honest; it then never raises a fault that
only broken code raises.
-/

namespace StackScript

/-! ## One instruction -/

/-- The context of the next instruction of a call. -/
def contextOf (h : Heap) (f : Frame) (rest : List Frame) (height : Nat -> Nat) (i : Instr) :
    Context where
  heap := h
  frames := { f with ip := f.ip + 1 } :: rest
  floor := if i.quiet then none else some (f.base + height f.ip - i.taken)

namespace Machine

section Step

variable {m : Machine} {f g : Frame} {rest outer : List Frame} {height : Nat -> Nat}
variable {i : Instr} {h : Heap} {n : Nat} {thrown : Value} {r : TryRange}

/-- A safe machine with a call in progress is about to carry out an instruction. -/
theorem Safe.stepping (hm : m.Safe) (hf : m.frames = f :: rest) :
    exists height i, m.fetch? f = some i ∧
      Stepping (contextOf m.heap f rest height i) f rest height i ∧
      m.advance.At (contextOf m.heap f rest height i) m.heap (f.base + height f.ip) := by
  have hstands := hm.stands
  rw [Machine.Stands, hf] at hstands
  rcases hstands with ⟨⟨height, hkeeps, hlt, hsize⟩, hwaiting⟩
  have hi : (m.heap.function f.function).code.instrs[f.ip]? = some _ :=
    Array.getElem?_eq_getElem hlt
  refine ⟨height, _, hi, ?_, ?_⟩
  · exact
      { keeps := hkeeps
        instr := hi
        frames := rfl
        good := by
          rw [← hf]
          exact hm.frames
        waiting := hwaiting
        floor := by
          intro hq
          simp only [contextOf, hq, Bool.false_eq_true, if_false] }
  · rw [advance_apply hf]
    have hclean := hm.clean
    exact ⟨⟨hclean.heap, hclean.stack, hclean.globals, hclean.natives⟩, rfl,
      Heap.Extends.refl _, rfl, hsize.symm⟩

/-! ## Thrown values -/

theorem catchIn_safe (hclean : m.Clean) (hv : thrown.Clean m.heap)
    (hgood : forall f, f ∈ g :: outer -> m.heap.Good f.function)
    (hle : g.base + r.depth <= m.stack.size)
    (hstands : Standing m.heap (g.base + r.depth + 1) ({ g with ip := r.stop } :: outer)) :
    (m.catchIn thrown g r outer).Safe where
  clean :=
    { heap := hclean.heap
      stack := by
        intro v hmem
        rcases Array.mem_push.mp hmem with hmem | rfl
        · exact hclean.stack v (mem_of_mem_extract hmem)
        · exact hv
      globals := hclean.globals
      natives := hclean.natives }
  frames := by
    intro f' hf'
    rcases List.mem_cons.mp hf' with rfl | hf'
    · exact hgood g (by simp)
    · exact hgood f' (by simp [hf'])
  stands := by
    have hsize : ((m.stack.take (g.base + r.depth)).push thrown).size = g.base + r.depth + 1 := by
      simp only [Array.size_push, Array.take_eq_extract, Array.size_extract]
      lia
    show Standing m.heap ((m.stack.take (g.base + r.depth)).push thrown).size _
    rw [hsize]
    exact hstands

theorem reset_safe (hclean : m.Clean) : m.reset.Safe := by
  refine ⟨⟨hclean.heap, ?_, hclean.globals, hclean.natives⟩, ?_, trivial⟩
  · intro v hv
    simp [Machine.reset] at hv
  · intro f' hf'
    simp [Machine.reset] at hf'

/-- What an instruction throws finds a handler with the locals it needs, or none at all. -/
theorem unwind_safe (hs : Stepping (contextOf m.heap f rest height i) f rest height i)
    {m' : Machine} (hm' : m'.At (contextOf m.heap f rest height i) h n)
    (hfails : (contextOf m.heap f rest height i).Fails n) (hv : thrown.Clean h) :
    (m'.unwind thrown).2.Safe := by
  rcases hfails with ⟨k, hk, hkn⟩
  have hext : m.heap.Extends m'.heap := by
    rw [hm'.heap]
    exact hm'.extends_
  have hgood : forall g, g ∈ f :: rest -> m'.heap.Good g.function :=
    fun g hg => (hs.good g hg).extends hext
  have hv' : thrown.Clean m'.heap := by
    rw [hm'.heap]
    exact hv
  have hquiet : i.quiet = false := by
    by_contra hq
    simp [contextOf, hq] at hk
  have hfloor : f.base + height f.ip - i.taken <= m'.stack.size := by
    simp only [contextOf, hquiet, Bool.false_eq_true, if_false, Option.some.injEq] at hk
    rw [hm'.size, hk]
    exact hkn
  have hreach := hs.fits.operands
  have htaken := i.taken_le_reach
  have hsame : m'.heap.function f.function = m.heap.function f.function :=
    hext.function_of_good (hs.good f (by simp))
  have hwaiting : Waiting m'.heap f.base rest :=
    hs.waiting.extends (fun g hg => hs.good g (by simp [hg])) hext
  unfold Machine.unwind
  rw [hm'.frames, hs.frames]
  cases hh : Machine.handler? m'.heap ({ f with ip := f.ip + 1 } :: rest) with
  | none => exact reset_safe hm'.clean
  | some found =>
      rcases found with ⟨g, r, outer⟩
      simp only [Machine.handler?, Nat.add_sub_cancel] at hh
      split at hh
      · -- The instruction itself is inside a `try`.
        rename_i r' hr'
        cases hh
        rcases Function.mem_of_findRange? hr' with ⟨hmem, hcovers⟩
        rw [hsame] at hmem
        have hkept := (hs.keeps.ranges r hmem).kept f.ip i hcovers hs.instr hquiet
        have hkeeps : (m'.heap.function f.function).Keeps height := by
          rw [hsame]
          exact hs.keeps
        have hmem' : r ∈ (m'.heap.function f.function).ranges := by
          rw [hsame]
          exact hmem
        have hruns := runs_handler hkeeps hmem'
        refine catchIn_safe hm'.clean hv' ?_ ?_ ⟨hruns, hwaiting⟩
        · intro f' hf'
          rcases List.mem_cons.mp hf' with rfl | hf'
          · exact hgood f (by simp)
          · exact hgood f' (by simp [hf'])
        · show f.base + r.depth <= m'.stack.size
          lia
      · have htop : f.base <= m'.stack.size := by lia
        rcases hwaiting.handler? htop hh with ⟨hg, hout, hle, hstands⟩
        refine catchIn_safe hm'.clean hv' ?_ hle hstands
        intro f' hf'
        rcases List.mem_cons.mp hf' with rfl | hf'
        · exact hgood f' (by simp [hg])
        · exact hgood f' (by simp [hout f' hf'])

end Step

/-! ## Runs -/

/-- What the next instruction raises, if it fails. -/
def raised? (m : Machine) : Option Raised :=
  match m.frames with
  | [] => none
  | f :: _ =>
    match execute (m.fetch? f) m.advance with
    | .ok _ _ => none
    | .error e _ => some e

section Raised

variable {m m' : Machine} {f : Frame} {rest : List Frame} {i : Instr} {e : Raised}

theorem raised?_idle (hf : m.frames = []) : m.raised? = none := by
  unfold Machine.raised?
  rw [hf]

theorem raised?_of_ok (hf : m.frames = f :: rest) (hi : m.fetch? f = some i)
    (h : Exec.step i m.advance = .ok () m') : m.raised? = none := by
  have hexecute : execute (m.fetch? f) m.advance = .ok () m' := by
    rw [hi]
    exact h
  unfold Machine.raised?
  simp only [hf, hexecute]

theorem raised?_of_error (hf : m.frames = f :: rest) (hi : m.fetch? f = some i)
    (h : Exec.step i m.advance = .error e m') : m.raised? = some e := by
  have hexecute : execute (m.fetch? f) m.advance = .error e m' := by
    rw [hi]
    exact h
  unfold Machine.raised?
  simp only [hf, hexecute]

end Raised

theorem tick_safe {m : Machine} (hm : m.Safe) : m.tick.2.Safe := by
  cases hf : m.frames with
  | nil =>
      rw [tick_idle hf]
      exact hm
  | cons f rest =>
      rcases hm.stepping hf with ⟨height, i, hi, hs, hat⟩
      have hstep := hs.step hat
      cases hr : Exec.step i m.advance with
      | ok u m' =>
          rw [hr] at hstep
          rw [tick_of_ok hf hi hr]
          exact hstep
      | error e m' =>
          rw [hr] at hstep
          rw [tick_of_error hf hi hr]
          rcases hstep with ⟨h, n, hm', hfails, he⟩
          refine unwind_safe hs hm' hfails ?_
          cases e with
          | fault fault => trivial
          | value v => exact he

theorem run_safe {m : Machine} (hm : m.Safe) (n : Nat) : (m.run n).2.Safe := by
  induction n generalizing m with
  | zero => exact hm
  | succ n ih =>
      have htick := tick_safe hm
      unfold Machine.run
      split
      · rename_i m' hm'
        rw [hm'] at htick
        exact ih htick
      · exact htick

theorem Safe.not_internal {m : Machine} (hm : m.Safe) {fault : Fault}
    (hr : m.raised? = some (.fault fault)) : fault.internal = false := by
  cases hf : m.frames with
  | nil =>
      rw [raised?_idle hf] at hr
      cases hr
  | cons f rest =>
      rcases hm.stepping hf with ⟨height, i, hi, hs, hat⟩
      have hstep := hs.step hat
      cases hx : Exec.step i m.advance with
      | ok u m' =>
          rw [raised?_of_ok hf hi hx] at hr
          cases hr
      | error e m' =>
          rw [raised?_of_error hf hi hx] at hr
          rw [hx] at hstep
          cases hr
          rcases hstep with ⟨h, n, -, -, he⟩
          exact he

/-! ## Machines to start from -/

/-- The functions that a machine can reach. -/
inductive Reaches (m : Machine) : Nat -> Prop where
  | frame {f : Frame} : f ∈ m.frames -> Reaches m f.function
  | stack {id : Nat} : Value.function id ∈ m.stack -> Reaches m id
  | global {name : String} {id : Nat} :
      m.globals[name]? = some (.function id) -> Reaches m id
  | heap {id : Nat} : m.heap.Holds id -> Reaches m id
  | constant {id id' : Nat} :
      Reaches m id -> Value.function id' ∈ (m.heap.function id).code.constants -> Reaches m id'

theorem good_of_reaches {m : Machine}
    (hcheck : forall id, m.Reaches id -> (m.heap.function id).Checked) {id : Nat}
    (hid : m.Reaches id) : m.heap.Good id := by
  refine ⟨m.Reaches, hid, ?_⟩
  intro i hi
  exact ⟨hcheck i hi, fun id' hid' => Reaches.constant hi hid'⟩

theorem safe_of_reaches {m : Machine}
    (hcheck : forall id, m.Reaches id -> (m.heap.function id).Checked)
    (hnatives : forall native, native ∈ m.natives -> Native.Honest native)
    (hstands : m.Stands) : m.Safe where
  clean :=
    { heap := Heap.clean_of_holds fun _ hid => good_of_reaches hcheck (.heap hid)
      stack := by
        intro v hv
        refine Value.clean_of_function ?_
        rintro id rfl
        exact good_of_reaches hcheck (.stack hv)
      globals := by
        intro name v hv
        refine Value.clean_of_function ?_
        rintro id rfl
        exact good_of_reaches hcheck (.global hv)
      natives := fun native hnative => (hnatives native hnative).tame }
  frames := fun _ hf => good_of_reaches hcheck (.frame hf)
  stands := hstands

/-- A machine that can only reach checked functions, whose calls stand where the check says and
whose host is honest, keeps its calls standing in every run and never raises an internal fault. -/
theorem run_raises_no_internal_fault {m m' : Machine} {n : Nat}
    (hcheck : forall id, m.Reaches id -> (m.heap.function id).Checked)
    (hnatives : forall native, native ∈ m.natives -> Native.Honest native)
    (hstands : m.Stands) (hrun : m.run n = (.running, m')) :
    m'.Stands ∧ forall fault, m'.raised? = some (.fault fault) -> fault.internal = false := by
  have hsafe := run_safe (safe_of_reaches hcheck hnatives hstands) n
  rw [hrun] at hsafe
  exact ⟨hsafe.stands, fun fault hr => hsafe.not_internal hr⟩

end Machine

/-! ## A function that catches a fault -/

/-- Negates nothing inside a `try` and forgets what is thrown. -/
def caughtNegation : Function where
  code :=
    { instrs :=
        #[.literal .none, .unary .negate, .pop, .jump 1, .pop, .literal .none, .ret] }
  ranges := #[⟨0, 4, 1, none⟩]
  head := some 0

def negationHeight (ip : Nat) : Nat :=
  #[1, 2, 2, 1, 2, 1, 2].getD ip 0

theorem caughtNegation_keeps : caughtNegation.Keeps negationHeight := by
  refine ⟨rfl, by decide, ?_, ?_, ?_⟩
  · intro ip i hi
    have hip : ip < 7 := (Array.getElem?_eq_some_iff.mp hi).1
    interval_cases ip <;> cases hi
    · exact Instr.fits_of_plain rfl (by decide) (by decide) rfl
    · exact Instr.fits_of_plain rfl (by decide) (by decide) rfl
    · exact Instr.fits_of_plain rfl (by decide) (by decide) rfl
    · exact Instr.fits_jump (by decide) (by decide) rfl
    · exact Instr.fits_of_plain rfl (by decide) (by decide) rfl
    · exact Instr.fits_of_plain rfl (by decide) (by decide) rfl
    · exact Instr.fits_of_last (Or.inl rfl) (by decide)
  · intro r hr
    have hrange : r = ⟨0, 4, 1, none⟩ := by simpa [caughtNegation] using hr
    subst hrange
    refine ⟨by decide, rfl, ?_⟩
    intro ip i hcovers hi hquiet
    have hip : ip < 4 := by
      simp only [TryRange.covers, Bool.and_eq_true, decide_eq_true_eq] at hcovers
      exact hcovers.2
    interval_cases ip <;> cases hi
    · decide
    · decide
    · cases hquiet
    · cases hquiet
  · exact .step rfl .done

def negatingMachine : Machine :=
  ({ heap := { functions := #[caughtNegation] } } : Machine).begin 0

theorem negatingMachine_reaches {id : Nat} (h : negatingMachine.Reaches id) : id = 0 := by
  induction h with
  | frame hf => simp_all [negatingMachine, Machine.begin]
  | stack hv => simpa [negatingMachine, Machine.begin] using hv
  | global hv => simp [negatingMachine, Machine.begin] at hv
  | heap hv => simp [negatingMachine, Machine.begin, Heap.Holds] at hv
  | constant _ hv ih =>
      subst ih
      simp [negatingMachine, Machine.begin, Heap.function, caughtNegation] at hv

theorem caughtNegation_raises_no_internal_fault :
    exists m', negatingMachine.run 1 = (.running, m') ∧
      m'.raised? = some (.fault (.expected "Negate" "`Integer` or `Float`" .none)) ∧
      m'.Stands ∧ forall fault, m'.raised? = some (.fault fault) -> fault.internal = false := by
  refine ⟨(negatingMachine.run 1).2, rfl, rfl, ?_⟩
  refine Machine.run_raises_no_internal_fault (m := negatingMachine) (n := 1) ?_ ?_ ?_ rfl
  · intro id hid
    rw [negatingMachine_reaches hid]
    exact ⟨negationHeight, caughtNegation_keeps⟩
  · intro native hnative
    simp [negatingMachine, Machine.begin] at hnative
  · exact ⟨⟨negationHeight, caughtNegation_keeps, by decide, rfl⟩, trivial⟩

/-! ## A host that stores a function of its own -/

/-- Gives nothing back, but puts a function without any code into the array that it is given. -/
def plant : Native := fun h args =>
  match args.toList with
  | .array id :: _ =>
    (.ok .none, { h.setItems id ((h.items id).push (.function h.functions.size)) with
      functions := h.functions.push {} })
  | _ => (.ok .none, h)

/-- Calls its first argument with its second one, and then what it finds there. -/
def planting : Function where
  arity := 2
  code :=
    { instrs :=
        #[.getLocal 1, .getLocal 2, .call 1, .pop, .getLocal 2, .literal (.int 0), .binary .get,
          .call 0, .ret] }

def plantingHeight (ip : Nat) : Nat :=
  #[3, 4, 5, 4, 3, 4, 5, 4, 4].getD ip 0

theorem planting_keeps : planting.Keeps plantingHeight := by
  refine ⟨rfl, by decide, ?_, ?_, .done⟩
  · intro ip i hi
    have hip : ip < 9 := (Array.getElem?_eq_some_iff.mp hi).1
    interval_cases ip <;> cases hi
    · exact Instr.fits_of_slot rfl rfl (by decide) (by decide) (by decide) rfl
    · exact Instr.fits_of_slot rfl rfl (by decide) (by decide) (by decide) rfl
    · exact Instr.fits_of_plain rfl (by decide) (by decide) rfl
    · exact Instr.fits_of_plain rfl (by decide) (by decide) rfl
    · exact Instr.fits_of_slot rfl rfl (by decide) (by decide) (by decide) rfl
    · exact Instr.fits_of_plain rfl (by decide) (by decide) rfl
    · exact Instr.fits_of_plain rfl (by decide) (by decide) rfl
    · exact Instr.fits_of_plain rfl (by decide) (by decide) rfl
    · exact Instr.fits_of_last (Or.inl rfl) (by decide)
  · intro r hr
    simp [planting] at hr

/-- A machine that is about to run it with the function of the host and an empty array. -/
def plantingMachine : Machine where
  natives := #[plant]
  heap := { functions := #[planting], arrays := #[#[]] }
  stack := #[.function 0, .native "plant" 0, .array 0]
  frames := [⟨0, 0, 0⟩]

theorem plantingMachine_reaches {id : Nat} (h : plantingMachine.Reaches id) : id = 0 := by
  induction h with
  | frame hf => simp_all [plantingMachine]
  | stack hv => simpa [plantingMachine] using hv
  | global hv => simp [plantingMachine] at hv
  | heap hv => simp [plantingMachine, Heap.Holds] at hv
  | constant _ hv ih =>
      subst ih
      simp [plantingMachine, Heap.function, planting] at hv

/-- It is not enough that the host gives back no function of its own. -/
theorem planted_function_breaks_run :
    (forall id, plantingMachine.Reaches id -> (plantingMachine.heap.function id).Checked) ∧
    plantingMachine.Stands ∧
    (forall native, native ∈ plantingMachine.natives -> forall (h : Heap) args id,
      (native h args).1 = .ok (.function id) ∨ (native h args).1 = .error (.function id) ->
        Value.function id ∈ args) ∧
    exists m', plantingMachine.run 8 = (.running, m') ∧
      m'.raised? = some (.fault .instructionOutOfBounds) := by
  refine ⟨?_, ?_, ?_, (plantingMachine.run 8).2, rfl, rfl⟩
  · intro id hid
    rw [plantingMachine_reaches hid]
    exact ⟨plantingHeight, planting_keeps⟩
  · exact ⟨⟨plantingHeight, planting_keeps, by decide, rfl⟩, trivial⟩
  · intro native hnative h args id hanswer
    have hplant : native = plant := by simpa [plantingMachine] using hnative
    subst hplant
    unfold plant at hanswer
    split at hanswer
    · rcases hanswer with hok | herror
      · cases hok
      · cases herror
    · rcases hanswer with hok | herror
      · cases hok
      · cases herror

end StackScript
