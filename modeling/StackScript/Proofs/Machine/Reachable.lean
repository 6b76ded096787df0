import StackScript.Proofs.Machine.Turns
import StackScript.Proofs.Tries

/-!
# Machines that run compiled scripts

A machine is reachable if it comes from a fresh interpreter by adding functions of a lawful
host, loading scripts and carrying out instructions.  Such a machine is safe, and all the
functions on its heap come from compiled scripts.
-/

namespace StackScript

/-! ## Compiled functions -/

def Function.Compiled (f : Function) : Prop :=
  exists base name source p, compile base name source = .ok p ∧ f ∈ p.all

theorem Function.Compiled.triesOf {f : Function} (hf : f.Compiled) :
    exists body, f.TriesOf body := by
  rcases hf with ⟨base, name, source, p, hp, hmem⟩
  rcases compile_eq_ok hp with ⟨s, -, rfl⟩
  rcases Script.of_mem_program hmem with ⟨_, d, -, rfl⟩ | rfl
  · exact ⟨d.body, assemble_triesOf ..⟩
  · exact ⟨s.body, assemble_triesOf ..⟩

theorem Heap.Compiles.compiled {h h' : Heap} (hh : h.Compiles h')
    (hf : forall f, f ∈ h.functions -> f.Compiled) : forall f, f ∈ h'.functions -> f.Compiled := by
  rcases hh with ⟨log, hlog⟩
  generalize h'.functions = b at hlog
  induction hlog with
  | refl => exact hf
  | script _ hp ih =>
      intro f hf
      rcases Array.mem_append.mp hf with hf | hf
      · exact ih f hf
      · exact ⟨_, _, _, _, hp, hf⟩

/-- The functions that were added are good. -/
theorem Heap.Compiles.good {h h' : Heap} (hh : h.Compiles h') {id : Nat}
    (hlo : h.functions.size <= id) (hhi : id < h'.functions.size) : h'.Good id := by
  rcases hh with ⟨log, hlog⟩
  generalize hb : h'.functions = b at hlog
  induction hlog generalizing h' with
  | refl =>
      rw [hb] at hhi
      exact absurd hhi (Nat.not_lt.mpr hlo)
  | script hmore hp ih =>
      rename_i log more name source p
      have hsame : Heap.Extends { functions := more ++ p.all } h' := Heap.extends_of_eq hb
      refine Heap.Good.extends ?_ hsame
      by_cases hmid : id < more.size
      · have hold : Heap.Good { functions := more } id := ih hmid rfl
        exact hold.extends (Heap.Compiles.extends ⟨_, Grown.refl.script hp⟩)
      · rw [hb, Array.size_append] at hhi
        rcases Nat.exists_eq_add_of_le (Nat.le_of_not_lt hmid) with ⟨i, rfl⟩
        exact Heap.good_of_compile (h := { functions := more }) hp (by lia)

/-- Whatever function a lawful host stores or gives back was good before or is compiled. -/
theorem Native.Lawful.tame {native : Native} (hn : native.Lawful) : native.Tame := by
  have hgood {h : Heap} {args : Array Value} {id : Nat} (hh : h.Clean)
      (hargs : forall v, v ∈ args -> v.Clean h)
      (hid : h.Holds id ∨ Value.function id ∈ args ∨
        (h.functions.size <= id ∧ id < (native h args).2.functions.size)) :
      (native h args).2.Good id := by
    have hext := hn.steady h args
    rcases hid with hid | hid | ⟨hlo, hhi⟩
    · exact (hh.good_of_holds hid).extends hext
    · exact Heap.Good.extends (hargs _ hid) hext
    · exact (hn.compiles h args).good hlo hhi
  constructor
  · intro h args hh hargs
    refine ⟨hn.steady h args, Heap.clean_of_holds ?_⟩
    exact fun id hid => hgood hh hargs (hn.stores h args id hid)
  · intro h args v hh hargs hv
    refine Value.clean_of_function ?_
    rintro id rfl
    exact hgood hh hargs (hn.answers h args id hv)

/-! ## Reachable machines -/

/-- The machines that come up while an interpreter with a lawful host runs scripts. -/
inductive Machine.Reachable : Machine -> Prop where
  | new (limits : Limits) (files : Files) : Reachable (Interpreter.new limits files).machine
  | addNative {i : Interpreter} {native : Native} (name : String) :
      Reachable i.machine -> native.Lawful -> Reachable (i.addNative name native).machine
  | files {m : Machine} (files : Files) : Reachable m -> Reachable { m with files := files }
  | load {m m' : Machine} {script : Option String} {source : String} {listing : Bool} :
      Reachable m -> m.frames = [] -> Interpreter.load m script source listing = .ok m' ->
        Reachable m'
  | tick {m : Machine} : Reachable m -> Reachable m.tick.2

/-- What holds of all machines that run compiled scripts. -/
structure Machine.Sound (m : Machine) : Prop where
  safe : m.Safe
  lawful : m.Lawful
  compiled : forall f, f ∈ m.heap.functions -> f.Compiled

namespace Machine

section Sound

variable {m m' : Machine}

/-- A turn leaves the host alone and adds compiled functions only. -/
theorem sound_tick (hm : m.Sound) : m.tick.2.Sound := by
  rcases m.exists_tick_kept with ⟨i, -, hkept⟩
  refine ⟨tick_safe hm.safe, ?_, (hkept.compiles hm.lawful).compiled hm.compiled⟩
  unfold Machine.Lawful
  rw [hkept.natives]
  exact hm.lawful

theorem sound_new (limits : Limits) (files : Files) :
    (Interpreter.new limits files).machine.Sound where
  safe :=
    { clean :=
        { heap := by
            have hempty : Heap.empty.Clean := Heap.clean_of_holds (by simp [Heap.Holds, Heap.empty])
            refine ((hempty.newArray ?_).2.newArray Heap.clean_noItems).2
            intro v hv
            rcases List.mem_map.mp (List.mem_toArray.mp hv) with ⟨text, -, rfl⟩
            trivial
          stack := by simp [Interpreter.new]
          globals := by
            refine Table.Clean.insert (Table.clean_empty.insert _ ?_) _ ?_
            · trivial
            · trivial
          natives := by simp [Interpreter.new] }
      frames := by simp [Interpreter.new]
      stands := trivial }
  lawful := by
    intro native hnative
    simp [Interpreter.new] at hnative
  compiled := by simp [Interpreter.new, Heap.newArray, Heap.empty]

theorem sound_addNative {i : Interpreter} {native : Native} (name : String)
    (hi : i.machine.Sound) (hn : native.Lawful) : (i.addNative name native).machine.Sound := by
  have hclean := hi.safe.clean
  refine ⟨⟨⟨hclean.heap, hclean.stack, ?_, ?_⟩, hi.safe.frames, hi.safe.stands⟩, ?_, hi.compiled⟩
  · exact hclean.globals.insert name trivial
  · intro other hother
    rcases Array.mem_push.mp hother with hold | rfl
    · exact hclean.natives other hold
    · exact hn.tame
  · intro other hother
    rcases Array.mem_push.mp hother with hold | rfl
    · exact hi.lawful other hold
    · exact hn

theorem sound_files (files : Files) (hm : m.Sound) : { m with files := files }.Sound := by
  have hclean := hm.safe.clean
  exact ⟨⟨⟨hclean.heap, hclean.stack, hclean.globals, hclean.natives⟩, hm.safe.frames,
    hm.safe.stands⟩, hm.lawful, hm.compiled⟩

theorem sound_load {script : Option String} {source : String} {listing : Bool} (hm : m.Sound)
    (hf : m.frames = []) (hload : Interpreter.load m script source listing = .ok m') :
    m'.Sound := by
  rcases Interpreter.load_ok hload with ⟨id, h, output, hc, rfl⟩
  have hclean := hm.safe.clean
  rcases Heap.compile_answers hclean.heap hc with ⟨hext, hheap, hgood⟩
  refine ⟨⟨⟨hheap, ?_, hclean.globals.extends hext, hclean.natives⟩, ?_, ?_⟩, hm.lawful, ?_⟩
  · intro v hv
    rcases Array.mem_push.mp hv with hold | rfl
    · exact (hclean.stack v hold).extends hext
    · exact hgood
  · intro f hf'
    have hf'' : f ∈ [(⟨id, 0, m.stack.size⟩ : Frame)] := by
      rw [← hf]
      exact hf'
    rw [List.mem_singleton.mp hf'']
    exact hgood
  · rcases hgood.checked with ⟨height, hkeeps⟩
    show Standing h (m.stack.push (.function id)).size (⟨id, 0, m.stack.size⟩ :: m.frames)
    rw [hf, Array.size_push]
    refine ⟨⟨height, hkeeps, hkeeps.nonempty, ?_⟩, trivial⟩
    show m.stack.size + height 0 = m.stack.size + 1
    rw [hkeeps.entry, Heap.arity_of_compile hc]
  · exact Heap.Compiles.compiled ⟨_, Heap.grown_of_compile hc⟩ hm.compiled

theorem Reachable.sound (hm : m.Reachable) : m.Sound := by
  induction hm with
  | new limits files => exact sound_new limits files
  | addNative name _ hn ih => exact sound_addNative name ih hn
  | files files _ ih => exact sound_files files ih
  | load _ hf hload ih => exact sound_load ih hf hload
  | tick _ ih => exact sound_tick ih

theorem Reachable.run (hm : m.Reachable) (n : Nat) : (m.run n).2.Reachable := by
  induction n generalizing m with
  | zero => exact hm
  | succ n ih =>
      have htick := hm.tick
      rw [Machine.run]
      split
      · rename_i m1 hm1
        rw [hm1] at htick
        exact ih htick
      · exact htick

end Sound
end Machine

/-- The machine at the beginning of a script, on a fresh interpreter without files. -/
def Interpreter.begun (source : String) : Machine :=
  (load (new {} Files.empty).machine none source false).toOption.getD default

theorem Interpreter.load_begun {source : String}
    (h : (load (new {} Files.empty).machine none source false).isOk = true) :
    load (new {} Files.empty).machine none source false = .ok (begun source) := by
  rcases exists_of_isOk h with ⟨m, hm⟩
  rw [begun, hm]
  rfl

theorem Interpreter.reachable_begun {source : String}
    (h : (load (new {} Files.empty).machine none source false).isOk = true) :
    (begun source).Reachable :=
  .load (.new {} Files.empty) rfl (load_begun h)

end StackScript
